import Mathlib.Data.List.Perm.Basic
import Offside.Proofs.SavedLevels

/-! States that are saved and recovered again and again. However many saves there are and in whatever
order, they leave what the smallest of them alone would leave. -/

namespace Offside.State

/-- What comes back of a state that is saved into a buffer. -/
def through (s : State) (buffer : List UInt8) : State :=
  let (written, bytes) := s.saveInto buffer
  recover (bytes.take written)

variable {s : State} {buffer buffer₁ buffer₂ : List UInt8} {buffers buffers' : List (List UInt8)}

theorem through_eq (s : State) (buffer : List UInt8) :
    s.through buffer = recover (s.save buffer.length) :=
  congrArg recover (take_saveInto buffer s)

theorem through_through (h : buffer.length = min buffer₁.length buffer₂.length) :
    (s.through buffer₁).through buffer₂ = s.through buffer := by
  rw [through_eq, through_eq, through_eq, recover_save_recover_save, h]

theorem through_through_of_le (h : buffer₁.length ≤ buffer₂.length) :
    (s.through buffer₁).through buffer₂ = s.through buffer₁ :=
  through_through (Nat.min_eq_left h).symm

/-- Behind a save, those into buffers that are no smaller lose nothing more. -/
theorem foldl_through_of_le (h : ∀ other ∈ buffers, buffer.length ≤ other.length) :
    buffers.foldl through (s.through buffer) = s.through buffer := by
  induction buffers with
  | nil => rfl
  | cons other buffers ih =>
      rw [List.forall_mem_cons] at h
      rw [List.foldl_cons, through_through_of_le h.1, ih h.2]

theorem foldl_through (buffers : List (List UInt8)) (s : State) :
    buffers.foldl through s =
      (buffers.map List.length).foldl (fun s capacity => recover (s.save capacity)) s := by
  rw [List.foldl_map]
  exact List.foldl_ext _ _ _ fun s buffer _ => through_eq s buffer

instance : RightCommutative fun s capacity => recover (s.save capacity) where
  right_comm s c d := by
    rw [recover_save_recover_save, recover_save_recover_save, Nat.min_comm]

theorem foldl_through_of_perm
    (h : (buffers.map List.length).Perm (buffers'.map List.length)) :
    buffers.foldl through s = buffers'.foldl through s := by
  rw [foldl_through, foldl_through, h.foldl_eq]

theorem foldl_through_of_mem (hmem : buffer ∈ buffers)
    (hle : ∀ other ∈ buffers, buffer.length ≤ other.length) :
    buffers.foldl through s = s.through buffer := by
  have hperm := (List.perm_cons_erase hmem).map List.length
  rw [foldl_through_of_perm hperm, List.foldl_cons]
  exact foldl_through_of_le fun other hother => hle other (List.mem_of_mem_erase hother)

/-- **Saves compose as the smaller buffer.** Any number of saves, each recovered before the next,
come to the one into the smallest of their buffers. Their order makes no difference, and neither
does what the buffers held before. -/
theorem saves_compose (s : State) :
    (∀ buffer₁ buffer₂ buffer : List UInt8, buffer.length = min buffer₁.length buffer₂.length →
      (s.through buffer₁).through buffer₂ = s.through buffer) ∧
    (∀ buffers : List (List UInt8), ∀ buffer ∈ buffers,
      (∀ other ∈ buffers, buffer.length ≤ other.length) →
      buffers.foldl through s = s.through buffer) ∧
    ∀ buffers buffers' : List (List UInt8),
      (buffers.map List.length).Perm (buffers'.map List.length) →
      buffers.foldl through s = buffers'.foldl through s :=
  ⟨fun _ _ _ h => through_through h,
    fun _ _ hmem hle => foldl_through_of_mem hmem hle,
    fun _ _ hperm => foldl_through_of_perm hperm⟩

/-- Four levels and a pending width, saved into buffers with room for three levels, for two and for
all: two levels are left, as of the one buffer with room for two, and as in any other order. -/
theorem saves_compose_of_four_levels :
    let s := ofParts [0, 2, 4, 8] (some 1)
    let three : List UInt8 := List.replicate 10 170
    let two : List UInt8 := List.replicate 9 1
    let all : List UInt8 := List.replicate 12 0
    (s.through three).through two = s.through (List.replicate 9 0) ∧
      [three, two, all].foldl through s = s.through two ∧
      [three, two, all].foldl through s = [all, two, three].foldl through s ∧
      s.through two = ofParts [0, 8] (some 1) := by
  intro s three two all
  obtain ⟨htwo, hsmallest, horder⟩ := saves_compose s
  have hmem : two ∈ [three, two, all] := .tail _ (.head _)
  have hperm : [10, 9, 12].Perm [12, 9, 10] := by decide
  exact ⟨htwo _ _ _ (by decide), hsmallest _ _ hmem (by decide), horder _ _ hperm, by decide⟩

end Offside.State
