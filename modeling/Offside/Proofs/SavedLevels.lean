import Offside.Saved.Basic

/-! What is left of a state that has been saved and recovered: which levels, how saves compose, and
when nothing is lost. -/

namespace Offside

/-- The levels that are kept are the base and the innermost of the others, in the same order. -/
theorem Levels.toList_keep {l : Levels} {n : Nat} (h : n < l.depth) :
    (l.keep n).toList = 0 :: l.toList.drop (l.depth - n) := by
  have hle : n ≤ l.opened.length := Nat.le_of_lt_succ h
  rw [toList, toList, opened_keep, List.reverse_take, depth, Nat.succ_sub hle,
    List.drop_succ_cons]

theorem Levels.top_keep {l : Levels} {n : Nat} (h : 0 < n) : (l.keep n).top = l.top := by
  obtain ⟨n, rfl⟩ := Nat.exists_eq_add_one.2 h
  rw [top, top, opened_keep]
  cases l.opened <;> rfl

theorem Levels.keep_eq_self_iff {l : Levels} {n : Nat} : l.keep n = l ↔ l.depth ≤ n + 1 := by
  refine ⟨fun h => ?_, keep_of_depth_le⟩
  have hdepth := l.depth_keep n
  rw [h] at hdepth
  omega

namespace State

open Saved

theorem save_of_lt {capacity : Nat} (h : capacity < headerSize) (s : State) :
    s.save capacity = [] :=
  if_pos h

theorem recover_save_of_le {capacity : Nat} (h : headerSize ≤ capacity) (s : State) :
    recover (s.save capacity) =
      ⟨s.levels.keep (keptDepth capacity s.levels.depth - 1), s.pending⟩ := by
  rw [recover_save, if_neg (Nat.not_lt.2 h)]

theorem keptDepth_min (c d depth : Nat) :
    min (keptDepth d (min (keptDepth c depth - 1) (depth - 1) + 1) - 1) (keptDepth c depth - 1) =
      keptDepth (min c d) depth - 1 := by
  have hroom : (min c d - headerSize) / 2 = min ((c - headerSize) / 2) ((d - headerSize) / 2) := by
    rcases Nat.le_total c d with h | h
    · rw [Nat.min_eq_left h, Nat.min_eq_left (Nat.div_le_div_right (Nat.sub_le_sub_right h _))]
    · rw [Nat.min_eq_right h, Nat.min_eq_right (Nat.div_le_div_right (Nat.sub_le_sub_right h _))]
  have hle := (keptDepth_le c depth).1
  rw [Nat.min_eq_left (Nat.sub_le_sub_right hle 1)]
  rw [keptDepth] at hle
  rw [keptDepth, keptDepth, keptDepth, hroom, maxDepth]
  generalize (c - headerSize) / 2 = f
  generalize (d - headerSize) / 2 = g
  rcases Nat.le_total f g with h | h
  · rw [Nat.min_eq_left h]
    omega
  · rw [Nat.min_eq_right h]
    omega

theorem recover_save_recover_save (c d : Nat) (s : State) :
    recover ((recover (s.save c)).save d) = recover (s.save (min c d)) := by
  by_cases hc : c < headerSize
  · rw [save_of_lt hc, save_of_lt (Nat.lt_of_le_of_lt (Nat.min_le_left c d) hc), recover_save]
    split
    · rfl
    · exact congrArg (State.mk · none) (Levels.keep_base _)
  by_cases hd : d < headerSize
  · rw [save_of_lt hd, save_of_lt (Nat.lt_of_le_of_lt (Nat.min_le_right c d) hd)]
  · have hc' := Nat.not_lt.1 hc
    have hd' := Nat.not_lt.1 hd
    have hcd := Nat.le_min.2 ⟨hc', hd'⟩
    calc recover ((recover (s.save c)).save d)
      _ = ⟨(s.levels.keep (keptDepth c s.levels.depth - 1)).keep
              (keptDepth d (min (keptDepth c s.levels.depth - 1) (s.levels.depth - 1) + 1) - 1),
            s.pending⟩ := by
          rw [recover_save_of_le hd', recover_save_of_le hc', Levels.depth_keep]
      _ = ⟨s.levels.keep (keptDepth (min c d) s.levels.depth - 1), s.pending⟩ := by
          rw [Levels.keep_keep, keptDepth_min]
      _ = recover (s.save (min c d)) := (recover_save_of_le hcd s).symm

theorem recover_save_idem (capacity : Nat) (s : State) :
    recover ((recover (s.save capacity)).save capacity) = recover (s.save capacity) := by
  rw [recover_save_recover_save, Nat.min_self]

/-- Nothing is lost where the levels fit; the base alone fits behind any header. -/
theorem recover_save_of_fits {capacity : Nat} {s : State} (hheader : 4 ≤ capacity)
    (hdepth : s.levels.depth ≤ max 1 (min 100 ((capacity - 4) / 2))) :
    recover (s.save capacity) = s := by
  rw [recover_save_of_le hheader, Levels.keep_of_depth_le]
  simp only [keptDepth, headerSize, maxDepth]
  omega

theorem length_save_of_le {capacity : Nat} (h : headerSize ≤ capacity) (s : State) :
    (s.save capacity).length = headerSize + 2 * keptDepth capacity s.levels.depth := by
  rw [save, if_neg (Nat.not_lt.2 h), length_bytesOf,
    length_keptLevels (keptDepth_le capacity s.levels.depth).1]

theorem length_save_le (capacity : Nat) (s : State) : (s.save capacity).length ≤ capacity := by
  by_cases h : capacity < headerSize
  · rw [save_of_lt h]
    exact Nat.zero_le _
  · rw [length_save_of_le (Nat.not_lt.1 h)]
    simp only [keptDepth, headerSize] at h ⊢
    omega

theorem writeOver_eq {buffer : List UInt8} (h : headerSize ≤ buffer.length) (s : State) :
    s.writeOver buffer = .ok ((Writer.ofBuffer buffer).after (s.save buffer.length)) := by
  have hroom := s.length_save_le buffer.length
  obtain ⟨hdepth, hmax⟩ := keptDepth_le buffer.length s.levels.depth
  have hcount : (keptLevels s.levels (keptDepth buffer.length s.levels.depth)).length < 256 := by
    rw [length_keptLevels hdepth]
    exact Nat.lt_of_le_of_lt hmax (by decide)
  rw [save, if_neg (Nat.not_lt.2 h)] at hroom ⊢
  exact Writer.putState_of_le hcount hroom

/-- What is written is what the state is saved as, and the bytes behind it stay. -/
theorem saveInto_eq (buffer : List UInt8) (s : State) :
    s.saveInto buffer = ((s.save buffer.length).length,
      s.save buffer.length ++ buffer.drop (s.save buffer.length).length) := by
  rw [saveInto]
  split
  · rename_i h
    rw [save_of_lt h]
    rfl
  · rename_i h
    rw [writeOver_eq (Nat.not_lt.1 h)]
    rfl

/-- The bytes that were in a buffer before are not among those to recover from. -/
theorem take_saveInto (buffer : List UInt8) (s : State) :
    (s.saveInto buffer).2.take (s.saveInto buffer).1 = s.save buffer.length := by
  rw [saveInto_eq, List.take_left]

theorem length_saveInto (buffer : List UInt8) (s : State) :
    (s.saveInto buffer).2.length = buffer.length := by
  have h := s.length_save_le buffer.length
  rw [saveInto_eq, List.length_append, List.length_drop]
  omega

theorem keptDepth_eq (capacity depth : Nat) :
    keptDepth capacity depth = min depth (min 100 ((capacity - 4) / 2)) := by
  rw [keptDepth, Nat.min_assoc]
  rfl

/-- **What a save into a buffer leaves of a state.** With room for the header, it is the pending
width, the base and the innermost levels that there is room for; without, it is nothing. So 1024
bytes tell states of up to 100 levels apart. -/
theorem survives_save (s : State) (buffer : List UInt8) :
    let written := (s.saveInto buffer).2.take (s.saveInto buffer).1
    let room := min 100 ((buffer.length - 4) / 2)
    let kept := min s.levels.depth room
    (buffer.length < 4 → s.saveInto buffer = (0, buffer) ∧ recover written = fresh) ∧
      (4 ≤ buffer.length →
        (recover written).pending = s.pending ∧
        (recover written).levels.toList =
          0 :: s.levels.toList.drop (s.levels.depth - (max kept 1 - 1)) ∧
        (recover written = s ↔ s.levels.depth ≤ max 1 room) ∧
        (2 ≤ kept → (recover written).levels.top = s.levels.top)) ∧
      ∀ (t : State) (other : List UInt8), buffer.length = 1024 → other.length = 1024 →
        s.levels.depth ≤ 100 → t.levels.depth ≤ 100 →
        written = (t.saveInto other).2.take (t.saveInto other).1 → s = t := by
  intro written room kept
  have hwritten : written = s.save buffer.length := take_saveInto buffer s
  have hdepth : 0 < s.levels.depth := Nat.succ_pos _
  refine ⟨fun hsmall => ?_, fun hheader => ?_, fun t other hbuffer hother hs ht hsame => ?_⟩
  · rw [hwritten, saveInto_eq, save_of_lt hsmall]
    exact ⟨rfl, rfl⟩
  · have hkept : keptDepth buffer.length s.levels.depth - 1 = max kept 1 - 1 := by
      rw [keptDepth_eq]
      omega
    have hlt : max kept 1 - 1 < s.levels.depth := by omega
    rw [hwritten, recover_save_of_le hheader, hkept]
    refine ⟨rfl, Levels.toList_keep hlt, ?_, fun htwo => Levels.top_keep (by omega)⟩
    rw [State.ext_iff, and_iff_left rfl, Levels.keep_eq_self_iff]
    omega
  · have hback {u : State} (hu : u.levels.depth ≤ 100) : recover (u.save 1024) = u :=
      recover_save_of_fits (by decide) (Nat.le_trans hu (by decide))
    rw [hwritten, take_saveInto, hbuffer, hother] at hsame
    rw [← hback hs, hsame, hback ht]

/-- Nine bytes leave the base and the innermost of four levels, three bytes leave nothing, and 1024
bytes tell as much whatever was in them. -/
theorem survives_save_nine_bytes :
    let s := ofParts [0, 2, 4, 8] (some 1)
    let buffer : List UInt8 := List.replicate 9 170
    let written := (s.saveInto buffer).2.take (s.saveInto buffer).1
    (recover written).pending = some 1 ∧ (recover written).levels.toList = [0, 8] ∧
      recover written ≠ s ∧ (recover written).levels.top = 8 ∧
      s.saveInto [1, 2, 3] = (0, [1, 2, 3]) ∧ s = ofParts [0, 2, 2, 4, 8] (some 1) := by
  intro s buffer written
  obtain ⟨-, hkept, -⟩ := survives_save s buffer
  obtain ⟨hpending, hlevels, hsame, htop⟩ := hkept (by decide)
  obtain ⟨hsmall, -⟩ := survives_save s [1, 2, 3]
  obtain ⟨-, -, hinjective⟩ := survives_save s (List.replicate 1024 7)
  refine ⟨hpending, hlevels.trans (by decide), ?_, (htop (by decide)).trans (by decide),
    (hsmall (by decide)).1, ?_⟩
  · rw [Ne, hsame]
    decide
  · refine hinjective _ (List.replicate 1024 9) List.length_replicate List.length_replicate
      (by decide) (by decide) ?_
    rw [take_saveInto, take_saveInto, List.length_replicate, List.length_replicate]
    decide +kernel

end State

end Offside
