import Mathlib.Data.List.Induction
import Offside.Proofs.CanonicalForm

/-! The levels that any list of widths opens. They are the base and the records of the list: the
widths that are wider than the base and than all before them. So the levels of a list need only the
innermost level to be known of what has been read. -/

namespace Offside.Levels

/-- The width is wider than the base and than every width before it. -/
def IsRecord (before : List UInt16) (w : UInt16) : Prop := 0 < w ∧ ∀ v ∈ before, v < w

/-- The list is looked through, and not all widths. -/
instance (before : List UInt16) (w : UInt16) : Decidable (IsRecord before w) :=
  decidable_of_iff (0 < w ∧ before.all (· < w) = true) (by simp [IsRecord])

/-- The widths that are records among those before them, in order. -/
def records (ws : List UInt16) : List UInt16 :=
  (ws.zipIdx.filter fun p => IsRecord (ws.take p.2) p.1).map Prod.fst

theorem records_concat (ws : List UInt16) (w : UInt16) :
    records (ws ++ [w]) = records ws ++ if IsRecord ws w then [w] else [] := by
  have hfront : ws.zipIdx.filter (fun p => IsRecord ((ws ++ [w]).take p.2) p.1) =
      ws.zipIdx.filter (fun p => IsRecord (ws.take p.2) p.1) := by
    refine List.filter_congr fun p hp => ?_
    have hindex : p.2 < ws.length := List.snd_lt_of_mem_zipIdx hp
    rw [List.take_append_of_le_length (Nat.le_of_lt hindex)]
  rw [records, records, List.zipIdx_append, List.filter_append, List.map_append, hfront,
    List.zipIdx_singleton, Nat.zero_add, List.filter_cons, List.filter_nil]
  dsimp only
  rw [List.take_left, apply_ite (List.map Prod.fst)]
  simp only [decide_eq_true_eq, List.map_cons, List.map_nil]

theorem mem_of_mem_records {ws : List UInt16} {w : UInt16} (h : w ∈ records ws) : w ∈ ws := by
  obtain ⟨p, hp, rfl⟩ := List.mem_map.1 h
  exact List.fst_mem_of_mem_zipIdx (List.mem_filter.1 hp).1

theorem ofList_concat (ws : List UInt16) (w : UInt16) :
    ofList (ws ++ [w]) = (ofList ws).push w := by
  rw [ofList, List.foldl_append]
  rfl

theorem top_push_lt_iff {l : Levels} {v w : UInt16} :
    (l.push v).top < w ↔ l.top < w ∧ v < w := by
  by_cases h : l.top < v
  · have htop : (l.push v).top = v := by rw [top, push_of_lt h, List.headD_cons]
    rw [htop]
    exact ⟨fun hw => ⟨UInt16.lt_trans h hw, hw⟩, And.right⟩
  · have hle : v ≤ l.top := UInt16.not_lt.1 h
    rw [push_of_le hle]
    exact ⟨fun hw => ⟨hw, UInt16.lt_of_le_of_lt hle hw⟩, And.left⟩

/-- The innermost level alone says which widths are wider than all that has been read. -/
theorem top_ofList_lt_iff {ws : List UInt16} {w : UInt16} :
    (ofList ws).top < w ↔ IsRecord ws w := by
  induction ws using List.reverseRecOn with
  | nil => simp [IsRecord, ofList, base, top]
  | append_singleton ws v ih =>
      rw [ofList_concat, top_push_lt_iff, ih, IsRecord, IsRecord, and_assoc, List.forall_mem_append,
        List.forall_mem_singleton]

theorem toList_ofList_eq_records (ws : List UInt16) : (ofList ws).toList = 0 :: records ws := by
  induction ws using List.reverseRecOn with
  | nil => rfl
  | append_singleton ws w ih =>
      rw [ofList_concat, records_concat]
      by_cases h : IsRecord ws w
      · rw [toList_push (top_ofList_lt_iff.2 h), ih, if_pos h, List.cons_append]
      · have hle : w ≤ (ofList ws).top := UInt16.not_lt.1 (mt top_ofList_lt_iff.1 h)
        rw [push_of_le hle, ih, if_neg h, List.append_nil]

theorem le_top_ofList {ws : List UInt16} {w : UInt16} (h : w ∈ ws) : w ≤ (ofList ws).top :=
  UInt16.not_lt.1 fun hlt => UInt16.lt_irrefl w ((top_ofList_lt_iff.1 hlt).2 w h)

/-- Only where no width is given is the innermost level none of them. -/
theorem top_ofList_mem {ws : List UInt16} (h : ws ≠ []) : (ofList ws).top ∈ ws := by
  have hmem := (ofList ws).top_mem_toList
  rw [toList_ofList_eq_records] at hmem
  rcases List.mem_cons.1 hmem with hzero | hrecord
  · obtain ⟨w, rest, rfl⟩ := List.exists_cons_of_ne_nil h
    have hle : w ≤ 0 := hzero ▸ le_top_ofList List.mem_cons_self
    rw [hzero, ← UInt16.le_zero_iff.1 hle]
    exact List.mem_cons_self
  · exact mem_of_mem_records hrecord

theorem ofList_append (xs ys : List UInt16) : ofList (xs ++ ys) = ys.foldl push (ofList xs) := by
  rw [ofList, List.foldl_append]
  rfl

/-- **The levels of a list of widths are its records.** They are the base and the widths that are
wider than it and than every width before them. Levels that are read again stay as they are. -/
theorem ofList_keeps_records (ws : List UInt16) :
    (ofList ws).toList = 0 :: records ws ∧
      (∀ w ∈ ws, w ≤ (ofList ws).top) ∧
      (if ws = [] then (ofList ws).top = 0 else (ofList ws).top ∈ ws) ∧
      WellFormed (ofList ws).toList ∧
      ((ofList ws).toList = ws ↔ WellFormed ws) ∧
      ofList (ofList ws).toList = ofList ws ∧
      ∀ ys, ofList (ws ++ ys) = ofList ((ofList ws).toList ++ ys) := by
  refine ⟨toList_ofList_eq_records ws, fun _ => le_top_ofList, ?_, wellFormed_toList _,
    toList_ofList_eq_iff, ofList_toList _, fun ys => ?_⟩
  · split
    · rename_i hnil
      rw [hnil]
      rfl
    · rename_i hne
      exact top_ofList_mem hne
  · rw [ofList_append, ofList_append, ofList_toList]

example : records [0, 8, 4, 8, 12] = [8, 12] := by decide

end Offside.Levels
