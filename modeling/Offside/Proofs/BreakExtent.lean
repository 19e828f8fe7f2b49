import Offside.Proofs.Lookahead

/-! How far a line break goes, and how wide the line behind it is. A cursor that finds one moves over
the longest text of the grammar of line breaks, and its mark has no width and stands behind that. -/

namespace Offside

namespace Cursor

variable {accept : MarkSet} {s t : State} {cursor : Cursor} {text taken rest : List Char}

theorem upcoming_ofOffset_eq_cons_iff {offset : Nat} {c : Char} :
    (ofOffset text offset).upcoming = some (c :: rest) ↔
      Text.dropBytes? offset text = some (c :: rest) := by
  have hsize := c.utf8Size_pos
  rw [ofOffset, Text.dropBytes?_eq_some_iff, Text.dropBytes?_eq_some_iff]
  refine exists_congr fun before => and_congr_right fun htext => ?_
  rw [htext, Text.byteLength_append, Text.byteLength_cons]
  omega

theorem mark_scan_eq_newline_iff :
    (cursor.scan accept s).1 = some .newline ↔
      accept.newline = true ∧ (s.settle accept).1 = none ∧
        ∃ behind, cursor.upcoming = some ('\n' :: behind) := by
  rw [scan, outcome]
  cases cursor.upcoming with
  | none => simpa using mark_scan_other_ne_newline accept s
  | some input =>
      simp only [Option.some.injEq]
      exact Offside.mark_scan_eq_newline_iff

/-- A line break moves the cursor behind it, and the mark starts and ends there. -/
theorem scan_of_longestBreak {spaces tabs : Nat} (haccept : accept.newline = true)
    (hsettle : s.settle accept = (none, t)) (hbreak : LongestBreak taken rest spaces tabs)
    (hupcoming : cursor.upcoming = some (taken ++ rest)) :
    let stop := cursor.pos + Text.byteLength taken
    cursor.scan accept s =
      (some .newline, t.await ⟨taken.length, spaces, tabs⟩, ⟨stop, stop, some stop, some rest⟩) := by
  intro stop
  obtain ⟨margins, rfl, -⟩ := hbreak.isBreak
  have houtcome : cursor.outcome accept s =
      ⟨some .newline, t.await ⟨('\n' :: margins).length, spaces, tabs⟩, ('\n' :: margins).length⟩ := by
    rw [outcome, hupcoming]
    exact Offside.scan_of_longestBreak haccept hsettle hbreak
  rw [scan, houtcome, behind]
  dsimp only
  rw [skip_append '\n' margins rest cursor hupcoming]
  rfl

end Cursor

theorem LineBreak.toNat_width (b : LineBreak) :
    b.width.toNat = min 65535 (b.spaces + 4 * b.tabs) := by
  rw [width, UInt16.toNat_ofNat']
  omega

/-- **How far a line break goes.** Where a line break is accepted and due, the cursor moves over the
longest one that the text has there, and the mark starts and ends behind it. Only the last margin of
it is measured, and no more than 65535 columns of that count. -/
theorem newline_takes_longestBreak (accept : MarkSet) (s : State) (text : List Char)
    (offset : Nat) :
    let cursor := Cursor.ofOffset text offset
    let call := cursor.scan accept s
    (call.1 = some .newline ↔
      accept.newline = true ∧ (s.settle accept).1 = none ∧
        ∃ behind, Text.dropBytes? offset text = some ('\n' :: behind)) ∧
    (call.1 = some .newline →
      ∃ (before taken rest : List Char) (spaces tabs : Nat) (width : UInt16),
        text = before ++ taken ++ rest ∧ Text.byteLength before = offset ∧
        LongestBreak taken rest spaces tabs ∧ (∀ c ∈ rest.head?, c ≠ '\n' ∧ c ≠ '\r') ∧
        call.2.1.pending = some width ∧ width.toNat = min 65535 (spaces + 4 * tabs) ∧
        let stop := offset + Text.byteLength taken
        call.2.2.start = stop ∧ call.2.2.stop = stop ∧ call.2.2.pos = stop) ∧
    Lookahead.scan accept s cursor = call := by
  intro cursor call
  have hmark : call.1 = some .newline ↔
      accept.newline = true ∧ (s.settle accept).1 = none ∧
        ∃ behind, Text.dropBytes? offset text = some ('\n' :: behind) := by
    simp only [← Cursor.upcoming_ofOffset_eq_cons_iff]
    exact Cursor.mark_scan_eq_newline_iff
  refine ⟨hmark, fun hnewline => ?_, (Cursor.scan_eq_lookahead accept s cursor).symm⟩
  obtain ⟨haccept, hsettle, behind, hbehind⟩ := hmark.1 hnewline
  obtain ⟨before, htext, hbefore⟩ := Text.dropBytes?_eq_some_iff.1 hbehind
  have hpos : cursor.pos = offset := congrArg Cursor.pos (Cursor.ofOffset_of_dropBytes? hbehind)
  obtain ⟨margins, rest, rfl, -, hbreak⟩ := LineBreak.longestBreak_read behind
  have hcall : call = _ := Cursor.scan_of_longestBreak haccept (Prod.ext hsettle rfl) hbreak
    (Cursor.upcoming_ofOffset_eq_cons_iff.2 hbehind)
  have hends := (longestBreak_iff.1 hbreak).2
  rw [hcall]
  refine ⟨before, '\n' :: margins, rest, _, _, _, ?_, hbefore, hbreak, ?_, rfl,
    LineBreak.toNat_width _, ?_⟩
  · rw [htext, List.append_assoc, List.cons_append]
  · intro c hc
    exact ⟨(hends c hc).2.1, (hends c hc).2.2.1⟩
  · rw [← hpos]
    exact ⟨rfl, rfl, rfl⟩

/-- Behind a character of two bytes and over two blank lines, to a line of so many tabs that each
would count four columns of 65536. -/
theorem newline_takes_longestBreak_tabs :
    let tabs := List.replicate 16384 '\t'
    let taken := '\n' :: ' ' :: '\r' :: '\n' :: tabs
    let cursor := Cursor.ofOffset ('é' :: taken ++ ['x']) 2
    let call := cursor.scan .full (.ofParts [0, 4] (some 4))
    call.1 = some .newline ∧ call.2.1.pending = some 65535 ∧
      call.2.2.start = 2 + Text.byteLength taken ∧ call.2.2.stop = 2 + Text.byteLength taken ∧
      call.2.2.pos = 2 + Text.byteLength taken ∧
      Lookahead.scan .full (.ofParts [0, 4] (some 4)) cursor = call := by
  intro tabs taken cursor call
  have hmargins : Margins (' ' :: '\r' :: '\n' :: tabs) 0 16384 :=
    .blank 1 0 (.inr rfl) (.blank 0 0 (.inl rfl) (.last 0 16384))
  clear_value tabs
  have hlongest : LongestBreak taken ['x'] 0 16384 :=
    longestBreak_iff.2 ⟨hmargins, endsBreak_cons.2 (by decide)⟩
  have hbehind : Text.dropBytes? 2 ('é' :: taken ++ ['x']) = some (taken ++ ['x']) :=
    Text.dropBytes?_eq_some_iff.2 ⟨['é'], rfl, rfl⟩
  obtain ⟨hmark, hextent, hloops⟩ :=
    newline_takes_longestBreak .full (.ofParts [0, 4] (some 4)) ('é' :: taken ++ ['x']) 2
  have hnewline : call.1 = some .newline := hmark.2 ⟨rfl, by decide, _, hbehind⟩
  obtain ⟨before, taken', rest, spaces, tabs', width, htext, hbefore, hbreak, -, hpending, hwidth,
    hstart, hstop, hpos⟩ := hextent hnewline
  have hfound : Text.dropBytes? 2 ('é' :: taken ++ ['x']) = some (taken' ++ rest) :=
    Text.dropBytes?_eq_some_iff.2 ⟨before, htext.trans (List.append_assoc ..), hbefore⟩
  obtain ⟨rfl, -, rfl, rfl⟩ :=
    hlongest.unique hbreak (Option.some.inj (hbehind.symm.trans hfound))
  obtain rfl : width = 65535 := UInt16.toNat_inj.1 hwidth
  exact ⟨hnewline, hpending, hstart, hstop, hpos, hloops⟩

end Offside
