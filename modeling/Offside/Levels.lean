/-!
The widths of the indentation levels that are open: zero for the base, and each level wider than
the one around it. Every operation keeps this order, because the type holds it.
-/

namespace Offside

def widthsText (ws : List UInt16) : String := "[" ++ ", ".intercalate (ws.map toString) ++ "]"

/-- The open indentation levels. -/
@[ext] structure Levels where
  /-- The widths above the base, the innermost first. -/
  opened : List UInt16
  descending : (opened ++ [0]).Pairwise (· > ·)
  deriving DecidableEq

namespace Levels

def base : Levels := ⟨[], by simp⟩

/-- Every width from the base inwards. -/
def toList (l : Levels) : List UInt16 := 0 :: l.opened.reverse

def top (l : Levels) : UInt16 := l.opened.headD 0

/-- The number of open levels, the base included. -/
def depth (l : Levels) : Nat := l.opened.length + 1

def isOpen (l : Levels) : Bool := !l.opened.isEmpty

theorem descending_cons {l : Levels} {w : UInt16} (h : l.top < w) :
    (w :: l.opened ++ [0]).Pairwise (· > ·) := by
  obtain ⟨opened, descending⟩ := l
  cases opened with
  | nil => simpa [top] using h
  | cons a as =>
    simp only [top, List.headD_cons] at h
    refine List.pairwise_cons.2 ⟨fun b hb => ?_, descending⟩
    rcases List.mem_cons.1 hb with rfl | hb
    · exact h
    · exact UInt16.lt_trans (List.rel_of_pairwise_cons descending hb) h

/-- Opens a level, if it is wider than the innermost one. -/
def push (l : Levels) (w : UInt16) : Levels :=
  if h : l.top < w then ⟨w :: l.opened, descending_cons h⟩ else l

/-- Closes the innermost level; the base stays. -/
def close (l : Levels) : Levels :=
  ⟨l.opened.tail, by
    cases h : l.opened with
    | nil => simp
    | cons a as =>
      have hd := l.descending
      rw [h] at hd
      exact hd.tail⟩

/-- Keeps the given number of innermost levels above the base. -/
def keep (l : Levels) (n : Nat) : Levels :=
  ⟨l.opened.take n, l.descending.sublist ((l.opened.take_sublist n).append (.refl _))⟩

/-- The levels that any list of widths opens, read outermost first: a width that is not wider
than the innermost level so far opens none. -/
def ofList (ws : List UInt16) : Levels := ws.foldl push base

theorem opened_push (l : Levels) (w : UInt16) :
    (l.push w).opened = if l.top < w then w :: l.opened else l.opened := by
  unfold push
  split <;> rfl

theorem push_of_lt {l : Levels} {w : UInt16} (h : l.top < w) :
    (l.push w).opened = w :: l.opened := by
  simp [opened_push, h]

theorem push_of_le {l : Levels} {w : UInt16} (h : w ≤ l.top) : l.push w = l :=
  dif_neg (UInt16.not_lt.2 h)

@[simp] theorem opened_base : base.opened = [] := rfl

@[simp] theorem opened_close (l : Levels) : l.close.opened = l.opened.tail := rfl

@[simp] theorem opened_keep (l : Levels) (n : Nat) : (l.keep n).opened = l.opened.take n := rfl

theorem isOpen_eq_true_iff {l : Levels} : l.isOpen = true ↔ l.opened ≠ [] := by
  simp [isOpen]

theorem top_pos_iff {l : Levels} : 0 < l.top ↔ l.opened ≠ [] := by
  obtain ⟨opened, descending⟩ := l
  cases opened with
  | nil => simp [top]
  | cons a as =>
    have : 0 < a := List.rel_of_pairwise_cons descending (by simp)
    simpa [top] using this

theorem depth_keep (l : Levels) (n : Nat) : (l.keep n).depth = min n (l.depth - 1) + 1 := by
  rw [depth, opened_keep, List.length_take, depth, Nat.add_sub_cancel]

theorem keep_keep (l : Levels) (m n : Nat) : (l.keep m).keep n = l.keep (min n m) := by
  ext1
  rw [opened_keep, opened_keep, opened_keep, List.take_take]

theorem keep_of_depth_le {l : Levels} {n : Nat} (h : l.depth ≤ n + 1) : l.keep n = l := by
  ext1
  rw [opened_keep]
  exact List.take_of_length_le (Nat.le_of_succ_le_succ h)

@[simp] theorem keep_base (n : Nat) : base.keep n = base := by
  ext1
  rw [opened_keep, opened_base, List.take_nil]

@[simp] theorem toList_base : base.toList = [0] := rfl

@[simp] theorem length_toList (l : Levels) : l.toList.length = l.depth := by
  simp [toList, depth]

theorem toList_eq (l : Levels) : l.toList = (l.opened ++ [0]).reverse := by
  simp [toList]

theorem pairwise_toList (l : Levels) : l.toList.Pairwise (· < ·) := by
  rw [toList_eq, List.pairwise_reverse]
  exact l.descending

theorem toList_push {l : Levels} {w : UInt16} (h : l.top < w) :
    (l.push w).toList = l.toList ++ [w] := by
  simp [toList, push_of_lt h]

theorem toList_close_append {l : Levels} (h : l.isOpen = true) :
    l.close.toList ++ [l.top] = l.toList := by
  obtain ⟨opened, descending⟩ := l
  cases opened with
  | nil => simp [isOpen] at h
  | cons a as => simp [toList, close, top]

theorem top_mem_toList (l : Levels) : l.top ∈ l.toList := by
  obtain ⟨opened, descending⟩ := l
  cases opened with
  | nil => exact List.mem_singleton.2 rfl
  | cons a as => simp [top, toList]

theorem le_top {l : Levels} {w : UInt16} (h : w ∈ l.toList) : w ≤ l.top := by
  cases hopen : l.isOpen with
  | true =>
    have hsorted := l.pairwise_toList
    rw [← toList_close_append hopen] at hsorted h
    rcases List.mem_append.1 h with h | h
    · exact UInt16.le_of_lt ((List.pairwise_append.1 hsorted).2.2 w h l.top (by simp))
    · rw [List.mem_singleton.1 h]
      exact UInt16.le_refl _
  | false =>
    have hopened : l.opened = [] := by simpa [isOpen] using hopen
    have hbase : w = 0 := by simpa [toList, hopened] using h
    rw [hbase]
    exact Nat.zero_le _

theorem ofList_opened_reverse (l : Levels) : ofList l.opened.reverse = l := by
  obtain ⟨opened, descending⟩ := l
  ext1
  induction opened with
  | nil => rfl
  | cons a as ih =>
    specialize ih descending.tail
    have htop : (ofList as.reverse).top = as.headD 0 := by rw [top, ih]
    have hlt : as.headD 0 < a := by
      cases as with
      | nil => exact List.rel_of_pairwise_cons descending (by simp)
      | cons b bs => exact List.rel_of_pairwise_cons descending (by simp)
    have hsplit : ofList (a :: as).reverse = (ofList as.reverse).push a := by
      simp [ofList, List.foldl_append]
    simp only [hsplit, push_of_lt (htop ▸ hlt), ih]

@[simp] theorem ofList_toList (l : Levels) : ofList l.toList = l := by
  have : ofList l.toList = ofList l.opened.reverse := by
    simp [ofList, toList, push_of_le, top]
  rw [this, ofList_opened_reverse]

end Levels

end Offside
