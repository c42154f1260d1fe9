import ScopeScript.Proofs.Token.Tiles

/-! Scanning line by line. A line break ends every piece in front of it but a string, so a source
can be cut at any line break outside of strings and its parts scanned on their own. -/
namespace ScopeScript

/-- Two sources with a line break between them, the first without an open string, have the items of
the first up to its end of input and behind them all items of the second, further down by the lines
of the first. A scanner over their bytes answers with these items, although it looks ahead over the
end of the first source. -/
theorem scan_of_lines {first : String} (terminated : Terminated first) (second : String) :
    let items := (scan first).dropLast ++ (scan second).map (Item.down (1 + lineBreaks first))
    scan first = (scan first).dropLast ++
        [.token ⟨⟨"", 1 + lineBreaks first⟩, .endOfInput⟩] ∧
      scan (first ++ "\n" ++ second) = items ∧
      ∀ n, Scanner.answer n { source := first ++ "\n" ++ second } = some items[n]? := by
  intro items
  have inner : (scan first).dropLast = openItems 1 (pieces first.toList) := by
    rw [scan_eq, List.dropLast_concat]
  have breaks : lineBreaks (first ++ "\n" ++ second) =
      lineBreaks second + (1 + lineBreaks first) := by
    simp only [lineBreaks, String.toList_append, List.count_append]
    have one : "\n".toList.count '\n' = 1 := by decide
    omega
  have closing : Item.token ⟨⟨"", 1 + lineBreaks (first ++ "\n" ++ second)⟩, .endOfInput⟩ =
      Item.down (1 + lineBreaks first) (.token ⟨⟨"", 1 + lineBreaks second⟩, .endOfInput⟩) := by
    rw [breaks, ← Nat.add_assoc]
    rfl
  have joined : scan (first ++ "\n" ++ second) = items := by
    calc scan (first ++ "\n" ++ second)
      _ = openItems 1 (pieces first.toList) ++
            (openItems 1 (pieces second.toList)).map (Item.down (1 + lineBreaks first)) ++
            [Item.down (1 + lineBreaks first)
              (.token ⟨⟨"", 1 + lineBreaks second⟩, .endOfInput⟩)] := by
        rw [scan_eq, openItems_join terminated, closing]
      _ = (scan first).dropLast ++ (scan second).map (Item.down (1 + lineBreaks first)) := by
        rw [inner, scan_eq second, List.map_append, List.append_assoc]
        rfl
  refine ⟨?_, joined, fun n => ?_⟩
  · rw [inner]
    exact scan_eq first
  · have here : Scanner.At { source := first ++ "\n" ++ second } []
        (first ++ "\n" ++ second).toList := ⟨rfl, rfl⟩
    rw [← joined]
    exact Scanner.answer_eq here rfl n

/-- The first line ends in a point and the second begins with a digit. They stay apart, and the
errors in both lines are items like others. -/
theorem scan_point_before_digit :
    Terminated "@1." ∧
      scan ("@1." ++ "\n" ++ "5\"") =
        [.error ⟨.unexpectedCharacter '@', 1⟩,
          .token ⟨⟨"1", 1⟩, .number (Number.read ['1'] [])⟩, .token ⟨⟨".", 1⟩, .symbol .dot⟩,
          .token ⟨⟨"5", 2⟩, .number (Number.read ['5'] [])⟩, .error ⟨.unterminatedString, 2⟩,
          .token ⟨⟨"", 2⟩, .endOfInput⟩] := by
  have terminated : Terminated "@1." := by
    unfold Terminated
    decide +kernel
  obtain ⟨-, joined, -⟩ := scan_of_lines terminated "5\""
  refine ⟨terminated, joined.trans ?_⟩
  decide +kernel

end ScopeScript
