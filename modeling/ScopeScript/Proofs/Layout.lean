import ScopeScript.Proofs.Parse.Loop
import ScopeScript.Proofs.Token.Layout
import ScopeScript.Session
import ScopeScript.Tree.Dump

/-! Layout is free. A source's tokens written again with other blanks and comments between them are
the same tokens, and since a parse does not look at lines, the trees and errors are the same too. -/
namespace ScopeScript

/-- A complaint without its line. -/
def Diagnostic.unlined : Diagnostic → Diagnostic
  | lexical e => lexical { e with line := 0 }
  | parse e => parse (e.relabel .unlined)
  | scope e => scope { e with place := e.place.relabel .unlined }
  | runtime e => runtime { e with line := 0 }
  | output e => output e
  | encoding e => encoding e

/-- What a parse gives, without lines. -/
def forgetLines : Except (List Diagnostic) (List Stmt) → Except (List Diagnostic) (List Stmt)
  | .ok program => .ok (Stmt.relabelEach .unlined program)
  | .error errors => .error (errors.map Diagnostic.unlined)

/-- A parse depends on lines only where it reports them. -/
theorem parseTokens_unlined {tokens tokens' : List Token} {nextId : ExprId}
    (same : (TokenBuffer.ofTokens tokens nextId).relabel .unlined =
      (TokenBuffer.ofTokens tokens' nextId).relabel .unlined) :
    Stmt.relabelEach .unlined (parseTokens tokens nextId).statements =
        Stmt.relabelEach .unlined (parseTokens tokens' nextId).statements ∧
      (parseTokens tokens nextId).errors.map (ParseError.relabel .unlined) =
        (parseTokens tokens' nextId).errors.map (ParseError.relabel .unlined) ∧
      (parseTokens tokens nextId).nextId = (parseTokens tokens' nextId).nextId := by
  obtain ⟨v, plain, whole, -, shows_⟩ :=
    shows_ofTokens tokens nextId 0 (fun _ => 0) (Nat.zero_le _)
  obtain ⟨v', plain', whole', -, shows'⟩ :=
    shows_ofTokens tokens' nextId 0 (fun _ => 0) (Nat.zero_le _)
  -- both parses keep step with one and the same over a buffer without lines
  let fuel := max (Cursor.ofTokens tokens nextId).rest.length
    (Cursor.ofTokens tokens' nextId).rest.length + 1
  obtain ⟨b, run, ended⟩ := program_of_shows whole shows_ (Nat.le_refl _)
    (by simp only [List.drop_zero, fuel]; omega : _ < fuel)
  obtain ⟨b', run', ended'⟩ := program_of_shows whole' shows' (Nat.le_refl _)
    (by simp only [List.drop_zero, fuel]; omega : _ < fuel)
  have start : { (TokenBuffer.ofTokens tokens nextId).relabel .unlined with current := 0 } =
      { (TokenBuffer.ofTokens tokens' nextId).relabel .unlined with current := 0 } := by
    rw [same]
  rw [plain] at run
  rw [plain'] at run'
  have both := run.symm.trans ((congrArg (Buffered.program fuel) start).trans run')
  obtain ⟨results, rfl⟩ := EStateM.Result.ok.inj both
  obtain ⟨statements, errors⟩ := Prod.mk.inj results
  refine ⟨statements, errors, ?_⟩
  have shift (w : View) (eq : w.relabel = ⟨(· + 0), fun _ => 0⟩) : w.shift = 0 := by
    have same := congrFun (congrArg Relabel.id eq) 0
    exact (Nat.zero_add _).symm.trans same
  have ids := ended.ids.symm.trans ended'.ids
  rw [shift v plain, shift v' plain'] at ids
  exact ids

/-- A token list with an end of input at its end is a buffer as it is. -/
theorem TokenBuffer.ofTokens_of_closed (ts : List Token) {e : Token} (isEnd : e.kind = .endOfInput)
    (nextId : ExprId) : ofTokens (ts ++ [e]) nextId = ⟨ts ++ [e], 0, nextId⟩ := by
  simp [ofTokens, isEnd]

/-- Sources without lexical errors whose tokens differ in nothing but lines are parsed alike. -/
theorem parse_unlined {source other : String} (clean : lexicalErrors source = [])
    (clean' : lexicalErrors other = [])
    (same : (innerTokens other).map (Token.relabel .unlined) =
      (innerTokens source).map (Token.relabel .unlined)) (s : Session) :
    forgetLines (s.parse other).1 = forgetLines (s.parse source).1 ∧
      (s.parse other).2 = (s.parse source).2 := by
  have buffers : (TokenBuffer.ofTokens (tokens other) s.nextId).relabel .unlined =
      (TokenBuffer.ofTokens (tokens source) s.nextId).relabel .unlined := by
    rw [tokens_eq, tokens_eq, TokenBuffer.ofTokens_of_closed _ rfl,
      TokenBuffer.ofTokens_of_closed _ rfl]
    simp only [TokenBuffer.relabel, List.map_append, same]
    rfl
  obtain ⟨statements, errors, ids⟩ := parseTokens_unlined buffers
  have diagnostics (es : List ParseError) : (es.map Diagnostic.parse).map Diagnostic.unlined =
      (es.map (ParseError.relabel .unlined)).map Diagnostic.parse := by
    simp [Diagnostic.unlined]
  simp only [Session.parse, parseSource, clean, clean', List.map_nil, List.nil_append, ids, and_true]
  have empty : ((parseTokens (tokens other) s.nextId).errors.map Diagnostic.parse).isEmpty =
      ((parseTokens (tokens source) s.nextId).errors.map Diagnostic.parse).isEmpty := by
    have := congrArg List.isEmpty errors
    simpa using this
  rw [empty]
  split
  · rw [forgetLines, forgetLines, statements]
  · rw [forgetLines, forgetLines, diagnostics, diagnostics, errors]

/-- The tokens of a source without lexical errors, written in another layout, are scanned to tokens
of the same kinds, values and texts, again without an error. In every session, a fresh one for
instance, both texts are parsed to the same trees or to the same errors, up to the lines in them,
with the same numbers used up. -/
theorem layout_free {source : String} {ts : List Token} {e : Token} {lead text : List Char}
    (clean : lexicalErrors source = []) (scanned : tokens source = ts ++ [e]) (isGap : Gap lead)
    (laid : LaidOut ts text) :
    let other := String.ofList (lead ++ text)
    lexicalErrors other = [] ∧
      (∃ us line, tokens other = us ++ [⟨⟨"", line⟩, .endOfInput⟩] ∧
        us.map (fun t => (t.kind, t.text)) = ts.map (fun t => (t.kind, t.text))) ∧
      ∀ s : Session, forgetLines (s.parse other).1 = forgetLines (s.parse source).1 ∧
        (s.parse other).2 = (s.parse source).2 := by
  intro other
  obtain ⟨rfl, -⟩ := List.append_inj' ((tokens_eq source).symm.trans scanned) rfl
  obtain ⟨clean', same⟩ := laid.scanned isGap
  refine ⟨clean', ⟨innerTokens other, _, tokens_eq other, ?_⟩, parse_unlined clean clean' same⟩
  have parts := congrArg (List.map fun t : Token => (t.kind, t.text)) same
  rw [List.map_map, List.map_map] at parts
  exact parts

/-- The tokens of `x=y/2;`. -/
def quotientTokens : List Token :=
  [⟨⟨"x", 1⟩, .identifier⟩, ⟨⟨"=", 1⟩, .symbol .equal⟩, ⟨⟨"y", 1⟩, .identifier⟩,
    ⟨⟨"/", 1⟩, .symbol .slash⟩, ⟨⟨"2", 1⟩, .number (Number.read ['2'] [])⟩,
    ⟨⟨";", 1⟩, .symbol .semicolon⟩]

/-- A slash and behind it a comment, which a blank keeps apart. The tokens stand on two lines now.
The tree is the assignment of a quotient. -/
theorem layout_free_quotient :
    let other := "// half\nx = y / // no comment before\n 2\t;"
    (tokens other).map (fun t => (t.text, t.line)) =
        [("x", 2), ("=", 2), ("y", 2), ("/", 2), ("2", 3), (";", 3), ("", 3)] ∧
      (forgetLines ((Session.start {} ⟨fun _ => 0, 0⟩).parse other).1).toOption.map Stmt.dumpEach =
        some ["(expr (#4 assign x@0 (#3 binary /@0 (#1 var y@0) (#2 num 2))))"] ∧
      lexicalErrors other = [] ∧
      (∃ us line, tokens other = us ++ [⟨⟨"", line⟩, .endOfInput⟩] ∧
        us.map (fun t => (t.kind, t.text)) = quotientTokens.map fun t => (t.kind, t.text)) ∧
      ∀ s : Session, forgetLines (s.parse other).1 = forgetLines (s.parse "x=y/2;").1 ∧
        (s.parse other).2 = (s.parse "x=y/2;").2 := by
  have clean : lexicalErrors "x=y/2;" = [] := by decide +kernel
  have scanned : tokens "x=y/2;" = quotientTokens ++ [⟨⟨"", 1⟩, .endOfInput⟩] := by decide +kernel
  have lead : Gap "// half\n".toList := @Gap.comment " half".toList [] (by decide) .none
  have blank (c : Char) (isBlank : c ∈ blanks) : Separates [c] :=
    ⟨.blank isBlank .none, c, isBlank, rfl⟩
  have note : Separates " // no comment before\n ".toList := by
    refine ⟨.blank (by decide) ?_, ' ', by decide, rfl⟩
    exact @Gap.comment " no comment before".toList [' '] (by decide) (.blank (by decide) .none)
  have laid : LaidOut quotientTokens "x = y / // no comment before\n 2\t;".toList :=
    .more (blank ' ' (by decide)) (.more (blank ' ' (by decide)) (.more (blank ' ' (by decide))
      (.more note (.more (blank '\t' (by decide)) (.last (.inl rfl))))))
  have whole : String.ofList ("// half\n".toList ++ "x = y / // no comment before\n 2\t;".toList) =
      "// half\nx = y / // no comment before\n 2\t;" := by
    decide
  have free := layout_free clean scanned lead laid
  rw [whole] at free
  refine ⟨by decide +kernel, ?_, free⟩
  rw [(free.2.2 _).1]
  decide +kernel

end ScopeScript
