import Mathlib.Data.List.TakeWhile
import ScopeScript.Tree.Printer

/-! Lists in parentheses. What is written operator first is a word, or a head with operands in
parentheses, and can be read back from its text: blanks and parentheses only ever stand between
words, so a word ends where one of them follows and a list where its parenthesis closes. -/
namespace ScopeScript

/-- A word, or a head and its operands. -/
inductive Sexp where
  | word (text : List Char)
  | list (head : List Char) (operands : List Sexp)

namespace Sexp

mutual

def text : Sexp → List Char
  | word text => text
  | list head operands => '(' :: (head ++ (textEach operands ++ [')']))

/-- Each operand with a space before it. -/
def textEach : List Sexp → List Char
  | [] => []
  | a :: rest => ' ' :: (a.text ++ textEach rest)

end

/-- The characters that part words. -/
def isBreak (c : Char) : Bool := c = ' ' || c = '(' || c = ')'

/-- At least one character, and none that parts words. -/
def IsWord (text : List Char) : Prop := text ≠ [] ∧ ∀ c ∈ text, isBreak c = false

instance : DecidablePred IsWord := fun text =>
  decidable_of_iff (text ≠ [] ∧ (text.all fun c => !isBreak c) = true) (by simp [IsWord])

mutual

/-- All words and heads are words. -/
def Worded : Sexp → Prop
  | word text => IsWord text
  | list head operands => IsWord head ∧ WordedEach operands

def WordedEach : List Sexp → Prop
  | [] => True
  | a :: rest => a.Worded ∧ WordedEach rest

end

/-- A text that goes on after a word has ended. -/
def Parted (rest : List Char) : Prop := ∀ c more, rest = c :: more → isBreak c = true

theorem parted_nil : Parted [] := nofun

theorem parted_cons {c : Char} (isBreak : isBreak c = true) (more : List Char) :
    Parted (c :: more) := by
  rintro _ _ ⟨⟩
  exact isBreak

theorem parted_textEach {operands : List Sexp} {rest : List Char} (parted : Parted rest) :
    Parted (textEach operands ++ rest) := by
  cases operands with
  | nil => exact parted
  | cons a others => exact parted_cons rfl _

theorem IsWord.takeWhile {text rest : List Char} (isWord : IsWord text) (parted : Parted rest) :
    (text ++ rest).takeWhile (!isBreak ·) = text := by
  rw [List.takeWhile_append_of_pos fun c mem => by rw [isWord.2 c mem]; rfl]
  cases rest with
  | nil => exact List.append_nil text
  | cons c more =>
    rw [List.takeWhile_cons_of_neg (by rw [parted c more rfl]; decide), List.append_nil]

/-- A word is told from what follows it. -/
theorem IsWord.append_inj {text text' rest rest' : List Char} (isWord : IsWord text)
    (isWord' : IsWord text') (parted : Parted rest) (parted' : Parted rest')
    (same : text ++ rest = text' ++ rest') : text = text' ∧ rest = rest' := by
  have front := congrArg (List.takeWhile (!isBreak ·)) same
  rw [isWord.takeWhile parted, isWord'.takeWhile parted'] at front
  subst front
  exact ⟨rfl, List.append_cancel_left same⟩

/-- A word does not begin with a parenthesis. -/
theorem IsWord.append_ne {text rest more : List Char} (isWord : IsWord text) :
    text ++ rest ≠ '(' :: more := by
  obtain ⟨c, others, rfl⟩ := List.exists_cons_of_ne_nil isWord.1
  rintro ⟨⟩
  have := isWord.2 '(' List.mem_cons_self
  contradiction

mutual

/-- What is written in front of a break is told from what follows it. -/
theorem text_append_inj : ∀ {a b : Sexp} {rest rest' : List Char}, a.Worded → b.Worded →
    Parted rest → Parted rest' → a.text ++ rest = b.text ++ rest' → a = b ∧ rest = rest'
  | word text, word text', rest, rest', worded, worded', parted, parted', same => by
    obtain ⟨rfl, rest⟩ := IsWord.append_inj worded worded' parted parted' same
    exact ⟨rfl, rest⟩
  | word text, list _ _, _, _, worded, _, _, _, same => absurd same (IsWord.append_ne worded)
  | list _ _, word text, _, _, _, worded, _, _, same => absurd same.symm (IsWord.append_ne worded)
  | list head operands, list head' operands', rest, rest', worded, worded', _, _, same => by
    simp only [text, List.cons_append, List.append_assoc, List.nil_append, List.cons.injEq,
      true_and] at same
    have closes (rest : List Char) : Parted (')' :: rest) := parted_cons rfl rest
    obtain ⟨rfl, tails⟩ := IsWord.append_inj worded.1 worded'.1 (parted_textEach (closes _))
      (parted_textEach (closes _)) same
    obtain ⟨rfl, rests⟩ := textEach_append_inj worded.2 worded'.2 tails
    exact ⟨rfl, rests⟩

theorem textEach_append_inj : ∀ {operands operands' : List Sexp} {rest rest' : List Char},
    WordedEach operands → WordedEach operands' →
    textEach operands ++ ')' :: rest = textEach operands' ++ ')' :: rest' →
    operands = operands' ∧ rest = rest'
  | [], [], _, _, _, _, same => ⟨rfl, List.tail_eq_of_cons_eq same⟩
  | [], _ :: _, _, _, _, _, same => nomatch List.head_eq_of_cons_eq same
  | _ :: _, [], _, _, _, _, same => nomatch List.head_eq_of_cons_eq same
  | a :: others, b :: others', rest, rest', worded, worded', same => by
    simp only [textEach, List.cons_append, List.append_assoc, List.cons.injEq, true_and] at same
    have closes (rest : List Char) : Parted (')' :: rest) := parted_cons rfl rest
    obtain ⟨rfl, tails⟩ := text_append_inj worded.1 worded'.1 (parted_textEach (closes _))
      (parted_textEach (closes _)) same
    obtain ⟨rfl, rests⟩ := textEach_append_inj worded.2 worded'.2 tails
    exact ⟨rfl, rests⟩

end

/-- No two have the same text. -/
theorem text_inj {a b : Sexp} (worded : a.Worded) (worded' : b.Worded) (same : a.text = b.text) :
    a = b := by
  rw [← List.append_nil a.text, ← List.append_nil b.text] at same
  exact (text_append_inj worded worded' parted_nil parted_nil same).1

end Sexp

namespace Expr

mutual

/-- The words and lists that an expression is written as. -/
def sexp : Expr → Sexp
  | literal _ value => .word value.render.toList
  | group _ inner => .list "group".toList [inner.sexp]
  | var _ name => .word name.text.toList
  | this _ _ => .word "this".toList
  | assign _ name value => .list "=".toList [.word name.text.toList, value.sexp]
  | unary _ _ sign operand => .list sign.text.toList [operand.sexp]
  | binary _ _ sign left right | logical _ _ sign left right =>
    .list sign.text.toList [left.sexp, right.sexp]
  | call _ callee arguments _ => .list "call".toList (callee.sexp :: sexpEach arguments)
  | get _ object property => .list ".".toList [object.sexp, .word property.text.toList]
  | set _ object property value =>
    .list ".=".toList [object.sexp, .word property.text.toList, value.sexp]

def sexpEach : List Expr → List Sexp
  | [] => []
  | e :: rest => e.sexp :: sexpEach rest

end

mutual

theorem toList_render : ∀ e : Expr, e.render.toList = e.sexp.text
  | literal _ _ | var _ _ | this _ _ => rfl
  | group _ inner | get _ inner _ | assign _ _ inner | unary _ _ _ inner => by
    simp [render, sexp, Sexp.text, Sexp.textEach, inner.toList_render]
  | binary _ _ _ left right | logical _ _ _ left right | set _ left _ right => by
    simp [render, sexp, Sexp.text, Sexp.textEach, left.toList_render, right.toList_render]
  | call _ callee arguments _ => by
    simp [render, sexp, Sexp.text, Sexp.textEach, callee.toList_render,
      toList_renderEach arguments]

theorem toList_renderEach : ∀ es : List Expr, (renderEach es).toList = Sexp.textEach (sexpEach es)
  | [] => rfl
  | e :: rest => by
    simp [renderEach, sexpEach, Sexp.textEach, e.toList_render, toList_renderEach rest]

end

end Expr
end ScopeScript
