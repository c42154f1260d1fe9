import ScopeScript.Proofs.Grammar.Spelled
import ScopeScript.Proofs.Number.Numeral
import ScopeScript.Proofs.Tree.Sexp

/-! Printed expressions can be read back. The head of a list tells the node, once unary minus is told
from subtraction by the number of operands, and a word tells the literal, the name or `this`: a
number begins with a digit or a sign, a name with a letter, and no name is a keyword. -/
namespace ScopeScript
open Grammar

namespace Number

/-- The text of a finite number is a word, and begins as no name does. -/
theorem numberText_word {x : Float} (finite : Finite x) :
    Sexp.IsWord (Literal.numberText x).toList ∧
      ∀ c more, (Literal.numberText x).toList = c :: more → Piece.isWordStart c = false := by
  obtain ⟨negative, b, shown⟩ := finite
  obtain ⟨body, text, ⟨⟨c, rest, rfl, digit⟩, inside⟩, -⟩ := numberText_spec shown
  have plain {c : Char} (inside : c.isDigit ∨ c = '.') : Sexp.isBreak c = false := by
    rcases inside with digit | rfl
    · rw [isDigit_iff] at digit
      simp only [Sexp.isBreak, Bool.or_eq_false_iff, decide_eq_false_iff_not, ← Char.toNat_inj]
      refine ⟨⟨?_, ?_⟩, ?_⟩ <;> simp only [Char.reduceToNat] <;> omega
    · rfl
  have notLetter : Piece.isWordStart c = false := by
    rw [isDigit_iff] at digit
    rw [Bool.eq_false_iff, ne_eq, isWordStart_iff]
    omega
  rw [text]
  cases negative
  · refine ⟨⟨nofun, fun d mem => plain (inside d mem)⟩, ?_⟩
    rintro _ _ ⟨⟩
    exact notLetter
  · refine ⟨⟨nofun, fun d mem => ?_⟩, ?_⟩
    · rcases List.mem_cons.mp mem with rfl | mem
      · rfl
      · exact plain (inside d mem)
    · rintro _ _ ⟨⟩
      rfl

end Number

/-- Neither a string nor a number without a value of its own. -/
def Literal.Plain : Literal → Prop
  | number value => Number.Finite value
  | string _ => False
  | boolean _ | nil => True

instance : DecidablePred Literal.Plain := fun value =>
  match value with
  | .number value => inferInstanceAs (Decidable (Number.Finite value))
  | .string _ => inferInstanceAs (Decidable False)
  | .boolean _ | .nil => inferInstanceAs (Decidable True)

namespace Expr

/-- A literal that is neither a string nor a number without a value; any other node. -/
def Plain : Expr → Prop
  | literal _ value => value.Plain
  | _ => True

instance : DecidablePred Plain := fun e =>
  match e with
  | .literal _ value => inferInstanceAs (Decidable value.Plain)
  | .group _ _ | .var _ _ | .this _ _ | .assign _ _ _ | .unary _ _ _ _ | .binary _ _ _ _ _
  | .logical _ _ _ _ _ | .call _ _ _ _ | .get _ _ _ | .set _ _ _ _ =>
    inferInstanceAs (Decidable True)

end Expr

/-! Heads and words. -/

/-- What the head of a list announces. -/
inductive Form where
  | group | assign | call | get | set
  | sign (op : UnaryOp)
  | infixed (op : InfixOp)
  deriving DecidableEq

namespace Form

def all : List Form :=
  [group, assign, call, get, set, sign .not, sign .negate, infixed (.binary .add),
    infixed (.binary .subtract), infixed (.binary .multiply), infixed (.binary .divide),
    infixed (.binary .equal), infixed (.binary .notEqual), infixed (.binary .greater),
    infixed (.binary .greaterEqual), infixed (.binary .less), infixed (.binary .lessEqual),
    infixed (.logical .and), infixed (.logical .or)]

theorem mem_all (form : Form) : form ∈ all := by
  rcases form with _ | _ | _ | _ | _ | (_ | _) | ((_ | _ | _ | _ | _ | _ | _ | _ | _ | _) | (_ | _))
    <;> decide

def head : Form → List Char
  | group => "group".toList
  | assign => "=".toList
  | call => "call".toList
  | get => ".".toList
  | set => ".=".toList
  | sign op => op.spelling
  | infixed op => op.spelling

/-- How many operands stand behind a head, where all lists with the head agree. -/
def takes : Form → Option Nat
  | sign _ => some 1
  | infixed _ => some 2
  | group | assign | call | get | set => none

theorem isWord_head (form : Form) : Sexp.IsWord form.head :=
  (by decide : ∀ form ∈ all, Sexp.IsWord form.head) form form.mem_all

/-- A head tells what it announces, but for the minus, which has one operand or two. -/
theorem eq_of_head_eq {form form' : Form} (same : form.head = form'.head) :
    form = form' ∨ ∃ n n', form.takes = some n ∧ form'.takes = some n' ∧ n ≠ n' := by
  have check : ∀ form ∈ all, ∀ form' ∈ all, form.head = form'.head →
      form = form' ∨ form.takes.isSome ∧ form'.takes.isSome ∧ form.takes ≠ form'.takes := by
    decide
  rcases check form form.mem_all form' form'.mem_all same with same | ⟨some, some', other⟩
  · exact .inl same
  · obtain ⟨n, count⟩ := Option.isSome_iff_exists.mp some
    obtain ⟨n', count'⟩ := Option.isSome_iff_exists.mp some'
    rw [count, count'] at other
    exact .inr ⟨n, n', count, count', fun same => other (congrArg Option.some same)⟩

end Form

namespace Expr

/-- The form of a node that is written as a list. -/
def form? : Expr → Option Form
  | literal _ _ | var _ _ | this _ _ => none
  | group _ _ => some .group
  | assign _ _ _ => some .assign
  | unary _ op _ _ => some (.sign op)
  | binary _ op _ _ _ => some (.infixed (.binary op))
  | logical _ op _ _ _ => some (.infixed (.logical op))
  | call _ _ _ _ => some .call
  | get _ _ _ => some .get
  | set _ _ _ _ => some .set

theorem sexp_of_form?_eq_none {e : Expr} (isWord : e.form? = none) : ∃ text, e.sexp = .word text := by
  cases e with
  | literal _ _ | var _ _ | this _ _ => exact ⟨_, rfl⟩
  | _ => cases isWord

theorem sexp_of_form?_eq_some {e : Expr} (spelled : e.Spelled) {form : Form}
    (isForm : e.form? = some form) :
    ∃ operands, e.sexp = .list form.head operands ∧ ∀ n, form.takes = some n → operands.length = n := by
  cases e with
  | literal _ _ | var _ _ | this _ _ => cases isForm
  | group _ _ | assign _ _ _ | call _ _ _ _ | get _ _ _ | set _ _ _ _ =>
    cases isForm
    exact ⟨_, rfl, nofun⟩
  | unary _ _ _ _ | binary _ _ _ _ _ | logical _ _ _ _ _ =>
    cases isForm
    rw [sexp, spelled]
    refine ⟨_, rfl, ?_⟩
    rintro _ ⟨⟩
    rfl

/-- What is written the same has the same form. -/
theorem form?_eq {e f : Expr} (spelled : e.Spelled) (spelled' : f.Spelled)
    (same : e.sexp = f.sexp) : e.form? = f.form? := by
  cases isForm : e.form? with
  | none =>
    obtain ⟨text, written⟩ := sexp_of_form?_eq_none isForm
    cases isForm' : f.form? with
    | none => rfl
    | some form =>
      obtain ⟨operands, written', -⟩ := sexp_of_form?_eq_some spelled' isForm'
      rw [written, written'] at same
      cases same
  | some form =>
    obtain ⟨operands, written, count⟩ := sexp_of_form?_eq_some spelled isForm
    cases isForm' : f.form? with
    | none =>
      obtain ⟨text, written'⟩ := sexp_of_form?_eq_none isForm'
      rw [written, written'] at same
      cases same
    | some form' =>
      obtain ⟨operands', written', count'⟩ := sexp_of_form?_eq_some spelled' isForm'
      rw [written, written', Sexp.list.injEq] at same
      obtain ⟨heads, rfl⟩ := same
      rcases Form.eq_of_head_eq heads with rfl | ⟨n, n', takes, takes', other⟩
      · rfl
      · exact absurd ((count n takes).symm.trans (count' n' takes')) other

end Expr

/-- A name is a word that begins with a letter, and no keyword. -/
theorem Spells.isWord {text : List Char} (spells : Spells text .identifier) :
    Sexp.IsWord text ∧ (∀ k : Keyword, k.word.toList ≠ text) ∧
      ∃ c more, text = c :: more ∧ Piece.isWordStart c = true := by
  cases spells with
  | @identifier first others start inside other =>
    have letter : Piece.isWordStart first = true := by
      simpa [Piece.isWordStart] using start
    refine ⟨⟨List.cons_ne_nil first others, ?_⟩, other, first, others, rfl, letter⟩
    have plain {c : Char} (inside : Piece.isWordRest c = true) : Sexp.isBreak c = false := by
      by_contra isBreak
      simp only [Sexp.isBreak, Bool.not_eq_false, Bool.or_eq_true, decide_eq_true_eq] at isBreak
      rcases isBreak with (rfl | rfl) | rfl <;> revert inside <;> decide
    intro c mem
    rcases List.mem_cons.mp mem with rfl | mem
    · refine plain ?_
      rcases start with letter | rfl
      · simp [Piece.isWordRest, Char.isAlphanum, letter]
      · rfl
    · exact plain (by simpa [Piece.isWordRest] using inside c mem)

theorem Keyword.word_injective {k k' : Keyword} (same : k.word = k'.word) : k = k' :=
  (by decide : ∀ k ∈ all, ∀ k' ∈ all, k.word = k'.word → k = k') k k.mem_all k' k'.mem_all same

namespace Literal

/-- A literal that is no string is a keyword or a number. -/
theorem render_cases {value : Literal} (plain : value.Plain) :
    (∃ k, Constant (.keyword k) value ∧ value.render = k.word) ∨
      ∃ x, value = number x ∧ Number.Finite x := by
  cases value with
  | number x => exact .inr ⟨x, rfl, plain⟩
  | string _ => exact plain.elim
  | boolean value =>
    cases value
    · exact .inl ⟨_, .false, rfl⟩
    · exact .inl ⟨_, .true, rfl⟩
  | nil => exact .inl ⟨_, .nil, rfl⟩

theorem isWord_render {value : Literal} (plain : value.Plain) :
    Sexp.IsWord value.render.toList := by
  rcases render_cases plain with ⟨k, -, written⟩ | ⟨x, rfl, finite⟩
  · rw [written]
    exact (by decide : ∀ k ∈ Keyword.all, Sexp.IsWord k.word.toList) k k.mem_all
  · exact (Number.numberText_word finite).1

theorem numberText_ne_word {x : Float} (finite : Number.Finite x) (k : Keyword) :
    numberText x ≠ k.word := by
  intro same
  obtain ⟨c, more, written, letter, -⟩ := k.word_chars
  have := (Number.numberText_word finite).2 c more (same ▸ written)
  rw [letter] at this
  contradiction

/-- A literal is not written as a name is, nor as `this`. -/
theorem render_ne {value : Literal} (plain : value.Plain) :
    value.render ≠ "this" ∧ ¬ Spells value.render.toList .identifier := by
  rcases render_cases plain with ⟨k, constant, written⟩ | ⟨x, rfl, finite⟩
  · rw [written]
    constructor
    · cases constant <;> decide
    · exact fun spells => spells.isWord.2.1 k rfl
  · constructor
    · exact numberText_ne_word finite .kwThis
    · intro spells
      obtain ⟨-, -, c, more, written, letter⟩ := spells.isWord
      rw [(Number.numberText_word finite).2 c more written] at letter
      contradiction

theorem render_inj {value value' : Literal} (plain : value.Plain) (plain' : value'.Plain)
    (same : value.render = value'.render) : value = value' := by
  rcases render_cases plain with ⟨k, constant, written⟩ | ⟨x, rfl, finite⟩
  · rcases render_cases plain' with ⟨k', constant', written'⟩ | ⟨y, rfl, finite'⟩
    · rw [written, written'] at same
      obtain rfl := Keyword.word_injective same
      cases constant <;> cases constant' <;> rfl
    · exact absurd (same.symm.trans written) (numberText_ne_word finite' k)
  · rcases render_cases plain' with ⟨k', -, written'⟩ | ⟨y, rfl, finite'⟩
    · exact absurd (same.trans written') (numberText_ne_word finite k')
    · exact congrArg number (Number.numberText_injective finite finite' same)

end Literal

/-- Forgets the numbers of nodes and the lines of tokens. -/
def Relabel.unlabelled : Relabel := ⟨fun _ => 0, fun _ => 0⟩

theorem Lexeme.relabel_unlabelled {l l' : Lexeme} (same : l.text = l'.text) :
    l.relabel .unlabelled = l'.relabel .unlabelled := by
  rw [Lexeme.relabel, Lexeme.relabel, same]
  rfl

namespace Expr

/-- A node that can be read back: its tokens are spelled as it has it, and its literal is plain. -/
def Readable (e : Expr) : Prop := e.Spelled ∧ e.Plain

theorem isWord_of_readable {e : Expr} (readable : e.Readable) {text : List Char}
    (written : e.sexp = .word text) : Sexp.IsWord text := by
  obtain ⟨spelled, plain⟩ := readable
  cases e with
  | literal _ value =>
    cases written
    exact Literal.isWord_render plain
  | var _ name =>
    cases written
    exact spelled.isWord.1
  | this _ _ =>
    cases written
    decide
  | _ => cases written

theorem sexpEach_eq_map (es : List Expr) : sexpEach es = es.map sexp := by
  induction es with
  | nil => rfl
  | cons e rest ih => rw [sexpEach, ih, List.map_cons]

theorem wordedEach_iff {operands : List Sexp} :
    Sexp.WordedEach operands ↔ ∀ a ∈ operands, a.Worded := by
  induction operands with
  | nil => exact iff_of_true trivial nofun
  | cons a rest ih => rw [Sexp.WordedEach, ih, List.forall_mem_cons]

/-- A readable expression is written with words. -/
theorem sexp_worded {e : Expr} (readable : ∀ node ∈ e.nodes, node.Readable) : e.sexp.Worded := by
  induction e using parts_induction with
  | node e ih =>
    rw [forall_mem_nodes] at readable
    obtain ⟨below, readable⟩ := readable
    have operand : ∀ part ∈ e.parts, part.sexp.Worded := fun part isPart =>
      ih part isPart (below part isPart)
    cases e with
    | literal _ _ | var _ _ | this _ _ => exact isWord_of_readable readable rfl
    | group _ inner => exact ⟨Form.group.isWord_head, operand inner List.mem_cons_self, trivial⟩
    | assign _ _ value =>
      exact ⟨Form.assign.isWord_head, readable.1.isWord.1, operand value List.mem_cons_self, trivial⟩
    | unary _ op _ inner =>
      have head := (Form.sign op).isWord_head
      rw [Form.head, ← readable.1] at head
      exact ⟨head, operand inner List.mem_cons_self, trivial⟩
    | binary _ op _ left right =>
      have head := (Form.infixed (.binary op)).isWord_head
      rw [Form.head, ← readable.1] at head
      obtain ⟨left, right⟩ := forall_mem_pair.mp operand
      exact ⟨head, left, right, trivial⟩
    | logical _ op _ left right =>
      have head := (Form.infixed (.logical op)).isWord_head
      rw [Form.head, ← readable.1] at head
      obtain ⟨left, right⟩ := forall_mem_pair.mp operand
      exact ⟨head, left, right, trivial⟩
    | call _ callee arguments _ =>
      refine ⟨Form.call.isWord_head, operand callee List.mem_cons_self, ?_⟩
      rw [sexpEach_eq_map, wordedEach_iff, List.forall_mem_map]
      exact fun a isArgument => operand a (List.mem_cons_of_mem _ isArgument)
    | get _ object _ =>
      exact ⟨Form.get.isWord_head, operand object List.mem_cons_self, readable.1.isWord.1, trivial⟩
    | set _ object _ value =>
      obtain ⟨object, value⟩ := forall_mem_pair.mp operand
      exact ⟨Form.set.isWord_head, object, readable.1.isWord.1, value, trivial⟩

/-- A word tells the literal, the name or `this`. -/
theorem relabel_eq_of_word {e f : Expr} (readable : e.Readable) (readable' : f.Readable)
    (isWord : e.form? = none) (isWord' : f.form? = none) (same : e.sexp = f.sexp) :
    e.relabel .unlabelled = f.relabel .unlabelled := by
  obtain ⟨spelled, plain⟩ := readable
  obtain ⟨spelled', plain'⟩ := readable'
  cases e with
  | literal _ value =>
    cases f with
    | literal _ value' =>
      have written := String.toList_inj.mp (Sexp.word.inj same)
      rw [relabel, relabel, Literal.render_inj plain plain' written]
      rfl
    | var _ name =>
      have written : value.render.toList = name.text.toList := Sexp.word.inj same
      exact absurd (written ▸ spelled') (Literal.render_ne plain).2
    | this _ _ =>
      exact absurd (String.toList_inj.mp (Sexp.word.inj same)) (Literal.render_ne plain).1
    | _ => cases isWord'
  | var _ name =>
    cases f with
    | literal _ value =>
      have written : name.text.toList = value.render.toList := Sexp.word.inj same
      exact absurd (written ▸ spelled) (Literal.render_ne plain').2
    | var _ name' =>
      have written := String.toList_inj.mp (Sexp.word.inj same)
      rw [relabel, relabel, Lexeme.relabel_unlabelled written]
      rfl
    | this _ _ => exact absurd (Sexp.word.inj same).symm (spelled.isWord.2.1 .kwThis)
    | _ => cases isWord'
  | this _ keyword =>
    cases f with
    | literal _ value =>
      exact absurd (String.toList_inj.mp (Sexp.word.inj same)).symm (Literal.render_ne plain').1
    | var _ name => exact absurd (Sexp.word.inj same) (spelled'.isWord.2.1 .kwThis)
    | this _ keyword' =>
      rw [relabel, relabel, Lexeme.relabel_unlabelled (spelled.trans spelled'.symm)]
      rfl
    | _ => cases isWord'
  | _ => cases isWord

theorem map_relabel_eq {es fs : List Expr} (each : ∀ e ∈ es, ∀ f ∈ fs, e.sexp = f.sexp →
      e.relabel .unlabelled = f.relabel .unlabelled) (same : es.map sexp = fs.map sexp) :
    es.map (relabel .unlabelled) = fs.map (relabel .unlabelled) := by
  induction es generalizing fs with
  | nil => rw [List.map_eq_nil_iff.mp same.symm]
  | cons e es ih =>
    obtain ⟨f, others, rfl, first, rest⟩ := List.map_eq_cons_iff.mp same.symm
    rw [List.map_cons, List.map_cons,
      each e List.mem_cons_self f List.mem_cons_self first.symm,
      ih (fun e isItem f isItem' => each e (List.mem_cons_of_mem _ isItem) f
        (List.mem_cons_of_mem _ isItem')) rest.symm]

/-- Readable expressions that are written the same are the same but for labels. -/
theorem relabel_eq_of_sexp_eq {e f : Expr} (readable : ∀ node ∈ e.nodes, node.Readable)
    (readable' : ∀ node ∈ f.nodes, node.Readable) (same : e.sexp = f.sexp) :
    e.relabel .unlabelled = f.relabel .unlabelled := by
  induction e using parts_induction generalizing f with
  | node e ih =>
    rw [forall_mem_nodes] at readable readable'
    obtain ⟨below, spelled, plain⟩ := readable
    obtain ⟨below', spelled', plain'⟩ := readable'
    have forms := form?_eq spelled spelled' same
    have operand {part part' : Expr} (isPart : part ∈ e.parts) (isPart' : part' ∈ f.parts)
        (same : part.sexp = part'.sexp) : part.relabel .unlabelled = part'.relabel .unlabelled :=
      ih part isPart (below part isPart) (below' part' isPart') same
    cases e with
    | literal _ _ | var _ _ | this _ _ =>
      exact relabel_eq_of_word ⟨spelled, plain⟩ ⟨spelled', plain'⟩ rfl forms.symm same
    | group _ inner =>
      cases f <;> cases forms
      simp only [sexp, Sexp.list.injEq, List.cons.injEq, and_true, true_and] at same
      simp only [relabel, operand List.mem_cons_self List.mem_cons_self same]
      rfl
    | assign _ name value =>
      cases f <;> cases forms
      simp only [sexp, Sexp.list.injEq, Sexp.word.injEq, List.cons.injEq, and_true, true_and,
        String.toList_inj] at same
      simp only [relabel, Lexeme.relabel_unlabelled same.1,
        operand List.mem_cons_self List.mem_cons_self same.2]
      rfl
    | unary _ op sign inner =>
      cases f <;> cases forms
      simp only [sexp, Sexp.list.injEq, List.cons.injEq, and_true, String.toList_inj] at same
      simp only [relabel, Lexeme.relabel_unlabelled same.1,
        operand List.mem_cons_self List.mem_cons_self same.2]
      rfl
    | binary _ op sign left right | logical _ op sign left right =>
      cases f <;> cases forms
      simp only [sexp, Sexp.list.injEq, List.cons.injEq, and_true, String.toList_inj] at same
      simp only [relabel, Lexeme.relabel_unlabelled same.1,
        operand List.mem_cons_self List.mem_cons_self same.2.1,
        operand (List.mem_cons_of_mem _ List.mem_cons_self)
          (List.mem_cons_of_mem _ List.mem_cons_self) same.2.2]
      rfl
    | call _ callee arguments closing =>
      cases f <;> cases forms
      simp only [sexp, Sexp.list.injEq, List.cons.injEq, true_and, sexpEach_eq_map] at same
      have each := map_relabel_eq (fun _ isArgument _ isArgument' =>
        operand (List.mem_cons_of_mem _ isArgument) (List.mem_cons_of_mem _ isArgument')) same.2
      simp only [relabel, relabelEach_eq_map, each,
        operand List.mem_cons_self List.mem_cons_self same.1,
        Lexeme.relabel_unlabelled (spelled.trans spelled'.symm)]
      rfl
    | get _ object property =>
      cases f <;> cases forms
      simp only [sexp, Sexp.list.injEq, Sexp.word.injEq, List.cons.injEq, and_true, true_and,
        String.toList_inj] at same
      simp only [relabel, Lexeme.relabel_unlabelled same.2,
        operand List.mem_cons_self List.mem_cons_self same.1]
      rfl
    | set _ object property value =>
      cases f <;> cases forms
      simp only [sexp, Sexp.list.injEq, Sexp.word.injEq, List.cons.injEq, and_true, true_and,
        String.toList_inj] at same
      simp only [relabel, Lexeme.relabel_unlabelled same.2.1,
        operand List.mem_cons_self List.mem_cons_self same.1,
        operand (List.mem_cons_of_mem _ List.mem_cons_self)
          (List.mem_cons_of_mem _ List.mem_cons_self) same.2.2]
      rfl

end Expr

/-- Expressions without strings that are printed the same are the same tree, but for the numbers of
the nodes and the lines of the tokens. -/
theorem printed_expression_unique {source source' : String} {nextId nextId' : ExprId} {e e' : Expr}
    (parsed : parseExpression (tokens source) nextId = .ok e)
    (parsed' : parseExpression (tokens source') nextId' = .ok e')
    (plain : ∀ node ∈ e.nodes, node.Plain) (plain' : ∀ node ∈ e'.nodes, node.Plain)
    (same : e.render = e'.render) : e.relabel .unlabelled = e'.relabel .unlabelled := by
  have readable : ∀ node ∈ e.nodes, node.Readable := fun node member =>
    ⟨parseExpression_spelled parsed node member, plain node member⟩
  have readable' : ∀ node ∈ e'.nodes, node.Readable := fun node member =>
    ⟨parseExpression_spelled parsed' node member, plain' node member⟩
  refine Expr.relabel_eq_of_sexp_eq readable readable' ?_
  refine Sexp.text_inj (Expr.sexp_worded readable) (Expr.sexp_worded readable') ?_
  rw [← Expr.toList_render, ← Expr.toList_render, same]

/-- The tree of `-a - call(x)`. -/
def differenceOfCall (first : ExprId) (line : Nat) (x : Float) : Expr :=
  .binary (first + 5) .subtract ⟨"-", line⟩
    (.unary (first + 1) .negate ⟨"-", line⟩ (.var first ⟨"a", line⟩))
    (.call (first + 4) (.var (first + 2) ⟨"call", line⟩) [.literal (first + 3) (.number x)]
      ⟨")", line⟩)

theorem parseExpression_differenceOfCall {source : String} (numeral : String)
    {line : Nat} {x : Float}
    (scanned : tokens source =
      [⟨⟨"-", line⟩, .symbol .minus⟩, ⟨⟨"a", line⟩, .identifier⟩, ⟨⟨"-", line⟩, .symbol .minus⟩,
        ⟨⟨"call", line⟩, .identifier⟩, ⟨⟨"(", line⟩, .symbol .leftParen⟩,
        ⟨⟨numeral, line⟩, .number x⟩, ⟨⟨")", line⟩, .symbol .rightParen⟩,
        ⟨⟨"", line⟩, .endOfInput⟩])
    (first : ExprId) : parseExpression (tokens source) first = .ok (differenceOfCall first line x) := by
  rw [scanned]
  cbv

theorem differenceOfCall_plain {x : Float} (finite : Number.Finite x) (first : ExprId) (line : Nat) :
    ∀ node ∈ (differenceOfCall first line x).nodes, node.Plain := by
  intro node member
  simp only [differenceOfCall, Expr.nodes, Expr.nodesEach, List.cons_append, List.nil_append,
    List.append_nil, List.mem_cons, List.not_mem_nil, or_false] at member
  rcases member with rfl | rfl | rfl | rfl | rfl | rfl
  · trivial
  · trivial
  · trivial
  · exact finite
  · trivial
  · trivial

theorem differenceOfCall_printed :
    let e := differenceOfCall 0 1 (Number.read ['1'] ['5'])
    let e' := differenceOfCall 7 2 (Number.read ['1'] ['5', '0'])
    parseExpression (tokens "-a - call(1.5)") 0 = .ok e ∧
      parseExpression (tokens "\n- a -call(1.50)") 7 = .ok e' ∧
      e.render = e'.render ∧ e.relabel .unlabelled = e'.relabel .unlabelled := by
  have parsed : parseExpression (tokens "-a - call(1.5)") 0 =
      .ok (differenceOfCall 0 1 (Number.read ['1'] ['5'])) :=
    parseExpression_differenceOfCall "1.5" (by decide +kernel) 0
  have parsed' : parseExpression (tokens "\n- a -call(1.50)") 7 =
      .ok (differenceOfCall 7 2 (Number.read ['1'] ['5', '0'])) :=
    parseExpression_differenceOfCall "1.50" (by decide +kernel) 7
  have finite : Number.Finite (Number.read ['1'] ['5']) := by decide +kernel
  have reading : Number.read ['1'] ['5', '0'] = Number.read ['1'] ['5'] := by decide +kernel
  rw [reading] at parsed' ⊢
  exact ⟨parsed, parsed', rfl, printed_expression_unique parsed parsed'
    (differenceOfCall_plain finite 0 1) (differenceOfCall_plain finite 7 2) rfl⟩

end ScopeScript
