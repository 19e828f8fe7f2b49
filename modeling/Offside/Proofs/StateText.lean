import Offside.Command.Run
import Offside.Proofs.HexDigits
import Offside.Proofs.Normalization

/-! A state written as digits by one command and described by another. Every list of widths that is
one of levels is written, and what is written is described as what was given, however the digits are
spread out over the words of the command. -/

namespace Offside

namespace State

theorem hexOfParts_eq_ok_iff {widths : List UInt16} {pending : Option UInt16} {h : List Char} :
    hexOfParts widths pending = .ok h ↔
      (widths = [] ∨ WellFormed widths) ∧ h = Hex.encode (ofParts widths pending).toBytes := by
  have hguard : (widths = [] || (ofParts widths pending).levels.toList = widths : Bool) = true ↔
      widths = [] ∨ WellFormed widths := by
    rw [Bool.or_eq_true, decide_eq_true_eq, decide_eq_true_eq]
    exact or_congr_right Levels.toList_ofList_eq_iff
  rw [← hguard]
  unfold hexOfParts
  dsimp only
  split
  · rename_i hwritten
    rw [Except.ok.injEq, and_iff_right hwritten]
    exact eq_comm
  · rename_i hrefused
    exact iff_of_false (fun h => nomatch h) fun h => hrefused h.1

/-- The widths of the levels that are open where the given ones are, from the base inwards. -/
theorem toList_ofParts {widths : List UInt16} (h : widths = [] ∨ WellFormed widths)
    (pending : Option UInt16) :
    (ofParts widths pending).levels.toList = if widths = [] then [0] else widths := by
  rcases h with rfl | h
  · rfl
  · have hne : widths ≠ [] := by
      rintro rfl
      cases h.1
    rw [if_neg hne]
    exact Levels.toList_ofList h

/-- Either way of reading takes the digits of a state for the levels of it that were written. -/
theorem ofHex_of_spaced (strict : Bool) (s : State) {start text : List Char}
    (hstart : start = [] ∨ start = ['0', 'x'])
    (h : Hex.Spaced (Hex.encode s.toBytes) text) :
    ofHex strict (start ++ text) = .ok ⟨s.levels.keep 99, s.pending⟩ := by
  rw [ofHex, Hex.decode_of_spaced hstart h]
  dsimp only
  cases strict with
  | true =>
      rw [if_pos rfl, decode_toBytes]
      rfl
  | false => rw [if_neg Bool.false_ne_true, recover_toBytes]

end State

namespace Command

open State

/-- **What is written for a state is described as that state**, however its digits are spread out
and cut into words. Of more than a hundred levels, the base and the innermost 99 are described. Only
widths that start at zero and grow are written. -/
theorem run_decode_encoded (access : String → Access) (widths : List UInt16)
    (pending : Option UInt16) :
    ((∃ h, hexOfParts widths pending = .ok h) ↔ widths = [] ∨ WellFormed widths) ∧
      ∀ h, hexOfParts widths pending = .ok h →
        run access (.encode ⟨pending, widths⟩) = .success (String.ofList h ++ "\n") ∧
        ∀ (strict : Bool) (start text : List Char) (words : List String),
          start = [] ∨ start = ['0', 'x'] → Hex.Spaced h text →
          (String.join words).toList = start ++ text →
          let given := if widths = [] then [0] else widths
          let shown := if given.length ≤ 100 then given else 0 :: given.drop (given.length - 99)
          run access (.decode ⟨words, strict⟩) =
            .success ("pending: " ++ pending.elim "none" toString ++ "\nlevels:  " ++
              widthsText shown ++ "\n") := by
  refine ⟨?_, fun h hh => ⟨?_, ?_⟩⟩
  · simp only [hexOfParts_eq_ok_iff, exists_and_left, exists_eq, and_true]
  · rw [run]
    dsimp only
    rw [hh]
  · intro strict start text words hstart hspaced hwords given shown
    obtain ⟨hwidths, rfl⟩ := hexOfParts_eq_ok_iff.1 hh
    have hgiven : (ofParts widths pending).levels.toList = given := toList_ofParts hwidths pending
    have hshown : ((ofParts widths pending).levels.keep 99).toList = shown := by
      rw [Levels.toList_keep_99, ← Levels.length_toList, hgiven]
    have hread := ofHex_of_spaced strict (ofParts widths pending) hstart hspaced
    rw [run]
    dsimp only
    rw [hwords, hread]
    dsimp only
    rw [describe, hshown]
    rfl

/-- Two levels and a pending width. The digits are cut into three words, with gaps in each. -/
theorem run_decode_encoded_three_words :
    let access : String → Access := fun _ => .denied .noSuchFile
    let digits := ['0', '1', '0', '2', '0', '0', '0', '2', '0', '0', '0', '0', '0', '4', '0', '0']
    let text := ['0', '1', ' ', '0', '2', '_', '0', '0', '0', '2', '\u00a0', '0', '0', '0', '0',
      '\t', '0', '4', '0', '0', ' ']
    let words := ["0x01 02_", "0002\u00a00000", "\t0400 "]
    hexOfParts [0, 4] (some 2) = .ok digits ∧ Hex.Spaced digits text ∧
      run access (.decode ⟨words, true⟩) =
        .success ("pending: " ++ "2" ++ "\nlevels:  " ++ widthsText [0, 4] ++ "\n") := by
  intro access digits text words
  have hwritten : hexOfParts [0, 4] (some 2) = .ok digits :=
    hexOfParts_eq_ok_iff.2 ⟨.inr ⟨rfl, by decide⟩, by decide +kernel⟩
  have hspaced : Hex.Spaced digits text := by
    repeat' first
      | exact .nil
      | refine .digit _ ?_
      | refine .gap (.inl (by decide)) ?_
      | refine .gap (.inr rfl) ?_
  have hread := (run_decode_encoded access [0, 4] (some 2)).2 digits hwritten
  exact ⟨hwritten, hspaced,
    hread.2 true ['0', 'x'] text words (.inr rfl) hspaced (by decide +kernel)⟩

end Command

end Offside
