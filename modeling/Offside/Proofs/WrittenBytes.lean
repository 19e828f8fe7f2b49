import Offside.Host.Registry
import Offside.Proofs.SavedLevels

/-! What writing a state does to a buffer. Either the header does not fit and the buffer stays, or
the number of bytes is known beforehand and all of them are written, in front of bytes that stay. -/

namespace Offside

open Saved

namespace Saved

theorem sizeOfDepth_le (depth : Nat) : sizeOfDepth depth ≤ bufferSize := by
  rw [sizeOfDepth, headerSize, maxDepth, bufferSize]
  omega

/-- With room for the levels, only the greatest depth limits what is kept. -/
theorem keptDepth_of_room {capacity depth : Nat} (h : sizeOfDepth depth ≤ capacity) :
    keptDepth capacity depth = min depth maxDepth := by
  rw [sizeOfDepth, headerSize] at h
  rw [keptDepth, headerSize]
  exact Nat.min_eq_left (by omega)

end Saved

namespace State

/-- With room for all that is ever written, the room makes no difference. -/
theorem save_of_room {capacity : Nat} {s : State} (h : sizeOfDepth s.levels.depth ≤ capacity) :
    s.save capacity = s.toBytes := by
  have hroom := Nat.le_min.2 ⟨Nat.le_refl _, sizeOfDepth_le s.levels.depth⟩
  have hheader {room : Nat} (hroom : sizeOfDepth s.levels.depth ≤ room) : ¬room < headerSize :=
    Nat.not_lt.2 (Nat.le_trans (Nat.le_add_right _ _) hroom)
  rw [toBytes, save, save, if_neg (hheader h), if_neg (hheader hroom), keptDepth_of_room h,
    keptDepth_of_room hroom]

theorem length_toBytes (s : State) : s.toBytes.length = sizeOfDepth s.levels.depth := by
  have hheader : headerSize ≤ sizeOfDepth s.levels.depth := Nat.le_add_right _ _
  rw [← save_of_room (Nat.le_refl _), length_save_of_le hheader, keptDepth_of_room (Nat.le_refl _)]
  rfl

theorem saveInto_of_room {buffer : List UInt8} {s : State}
    (h : sizeOfDepth s.levels.depth ≤ buffer.length) :
    s.saveInto buffer = (sizeOfDepth s.levels.depth,
      s.toBytes ++ buffer.drop (sizeOfDepth s.levels.depth)) := by
  rw [saveInto_eq, save_of_room h, length_toBytes]

/-- **A state is written whole or not at all.** Over a buffer with room for the header the writing
does not break off. The bytes behind what is written stay, and what was there before makes no
difference. -/
theorem saveInto_whole (s : State) (buffer : List UInt8) :
    let n := (s.saveInto buffer).1
    let after := (s.saveInto buffer).2
    (buffer.length < 4 → n = 0 ∧ after = buffer) ∧
    (4 ≤ buffer.length →
      (∃ w, s.writeOver buffer = .ok w ∧ w.written.length = n ∧ w.buffer = after) ∧
      n = 4 + 2 * min s.levels.depth (min 100 ((buffer.length - 4) / 2)) ∧ n ≤ buffer.length ∧
      after.length = buffer.length ∧ after.drop n = buffer.drop n ∧
      ∀ other : List UInt8, other.length = buffer.length →
        (s.saveInto other).1 = n ∧ (s.saveInto other).2.take n = after.take n) ∧
    (sizeOfDepth s.levels.depth ≤ buffer.length →
      n = sizeOfDepth s.levels.depth ∧ after.take n = s.toBytes) ∧
    (buffer.length = 1024 → ∀ (r : Host.Registry) (handle : Nat), r.get? (some handle) = some s →
      r.serialize (some handle) (some buffer) = (sizeOfDepth s.levels.depth,
        some (s.toBytes ++ buffer.drop (sizeOfDepth s.levels.depth)))) := by
  intro n after
  have hn : n = (s.save buffer.length).length := congrArg Prod.fst (saveInto_eq buffer s)
  have hafter : after = s.save buffer.length ++ buffer.drop n := by
    rw [hn]
    exact congrArg Prod.snd (saveInto_eq buffer s)
  refine ⟨fun hsmall => ?_, fun hheader => ⟨?_, ?_, ?_, ?_, ?_, ?_⟩, fun hroom => ?_, ?_⟩
  · have hnone : s.save buffer.length = [] := save_of_lt hsmall s
    rw [hafter, hn, hnone]
    exact ⟨rfl, rfl⟩
  · refine ⟨_, writeOver_eq hheader s, ?_, ?_⟩
    · rw [hn]
      rfl
    · rw [hafter, hn]
      rfl
  · rw [hn, length_save_of_le hheader, keptDepth_eq]
    rfl
  · rw [hn]
    exact s.length_save_le buffer.length
  · exact length_saveInto buffer s
  · rw [hafter, hn, List.drop_left]
  · intro other hlength
    rw [saveInto_eq other, hlength, hafter, hn, List.take_left, List.take_left]
    exact ⟨rfl, rfl⟩
  · rw [hafter, hn, save_of_room hroom, List.take_left, length_toBytes]
    exact ⟨rfl, rfl⟩
  · intro hlength r handle hget
    have hroom : sizeOfDepth s.levels.depth ≤ buffer.length :=
      hlength ▸ sizeOfDepth_le s.levels.depth
    rw [Host.Registry.serialize_of_get? hget, saveInto_of_room hroom]

/-- Four levels. Three bytes stay as they are, nine bytes take the base and the innermost level, and
the last of them stays; a host gets twelve bytes. -/
theorem saveInto_whole_of_four_levels :
    let s := ofParts [0, 2, 4, 8] (some 1)
    let small : List UInt8 := List.replicate 9 170
    let large : List UInt8 := List.replicate 1024 170
    s.saveInto [1, 2, 3] = (0, [1, 2, 3]) ∧
      (∃ w, s.writeOver small = .ok w ∧ w.written.length = 8) ∧
      (s.saveInto small).2.drop 8 = [170] ∧
      (s.saveInto (List.replicate 9 7)).2.take 8 = (s.saveInto small).2.take 8 ∧
      (s.saveInto (List.replicate 12 0)).2.take 12 = s.toBytes ∧
      (Host.Registry.mk #[some s]).serialize (some 0) (some large) =
        (12, some (s.toBytes ++ large.drop 12)) := by
  intro s small large
  obtain ⟨hstays, -⟩ := saveInto_whole s [1, 2, 3]
  obtain ⟨hzero, hsame⟩ := hstays (by decide)
  obtain ⟨-, hwritten, -⟩ := saveInto_whole s small
  obtain ⟨⟨w, hwrites, hlength, -⟩, hcount, -, -, hbehind, hother⟩ := hwritten (by decide)
  obtain ⟨-, -, hroom, -⟩ := saveInto_whole s (List.replicate 12 0)
  obtain ⟨htwelve, hbytes⟩ := hroom (by decide)
  obtain ⟨-, -, -, hhost⟩ := saveInto_whole s large
  have height : (s.saveInto small).1 = 8 := hcount.trans (by decide)
  rw [height] at hlength hbehind hother
  rw [htwelve] at hbytes
  refine ⟨Prod.ext hzero hsame, ⟨w, hwrites, hlength⟩, hbehind.trans (by decide),
    (hother _ (by decide)).2, hbytes, ?_⟩
  exact hhost List.length_replicate _ 0 rfl

end State

end Offside
