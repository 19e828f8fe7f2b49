import Offside.Proofs.CanonicalForm

/-! All the ways in which reading with care can end without a state. Each says which part of the bytes
has been read by then, and that nothing was wrong with the levels in it. -/

namespace Offside

open Saved

namespace Saved

variable {bytes rest : List UInt8} {d : Defect}

/-- What a reader meets where it stops among the levels. The given ones have been read, and the
number says how many more are announced. -/
inductive Stops (l : Levels) : Nat → List UInt8 → Defect → Prop where
  | trailing {rest : List UInt8} (hrest : rest ≠ []) : Stops l 0 rest (.trailingBytes rest.length)
  | missing {more : Nat} {rest : List UInt8} (hrest : rest.length < 2) :
      Stops l (more + 1) rest (.truncated "indent level" (headerSize + 2 * l.depth))
  | narrow {more : Nat} {low high : UInt8} {rest : List UInt8} (hle : wordOf low high ≤ l.top) :
      Stops l (more + 1) (low :: high :: rest) (.notIncreasing l.depth (wordOf low high) l.top)

theorem Stops.at_once {l : Levels} {n : Nat} (h : Stops l n bytes d) :
    ∃ pairs l' rest more, bytes = pairBytes pairs ++ rest ∧
      l'.toList = l.toList ++ pairWords pairs ∧ pairs.length + more = n ∧ Stops l' more rest d :=
  ⟨[], l, bytes, n, rfl, (List.append_nil _).symm, Nat.zero_add n, h⟩

/-- The levels that are read before the reader stops grow, so that they are levels again. -/
theorem exists_stops_of_decodeOpened {l : Levels} {n : Nat} (h : decodeOpened l n bytes = .error d) :
    ∃ pairs l' rest more, bytes = pairBytes pairs ++ rest ∧
      l'.toList = l.toList ++ pairWords pairs ∧ pairs.length + more = n ∧ Stops l' more rest d := by
  induction n generalizing l bytes with
  | zero =>
      cases bytes with
      | nil => cases h
      | cons b bytes =>
          obtain rfl := Except.error.inj h
          exact Stops.at_once (.trailing (List.cons_ne_nil b bytes))
  | succ n ih =>
      match bytes with
      | [] =>
        obtain rfl := Except.error.inj h
        exact Stops.at_once (.missing Nat.two_pos)
      | [b] =>
        obtain rfl := Except.error.inj h
        have hmissing : Stops l (n + 1) [b] (.truncated "indent level" (headerSize + 2 * l.depth)) :=
          .missing Nat.one_lt_two
        exact hmissing.at_once
      | low :: high :: rest =>
        rw [decodeOpened] at h
        split at h
        · rename_i hwider
          obtain ⟨pairs, l', rest', more, rfl, hlevels, hcount, hstops⟩ := ih h
          refine ⟨(low, high) :: pairs, l', rest', more, rfl, ?_, ?_, hstops⟩
          · rw [hlevels, Levels.toList_push hwider, List.append_assoc]
            rfl
          · rw [List.length_cons]
            omega
        · rename_i hnarrow
          obtain rfl := Except.error.inj h
          exact Stops.at_once (.narrow (UInt16.not_lt.1 hnarrow))

/-- The flag and the width agree: one of them says what is pending, or both that nothing is. -/
def Agree (flag : UInt8) (width : UInt16) : Prop := flag = 0 ∧ width = 0 ∨ flag = 1

/-- The bytes are refused for the given defect. -/
inductive Refusal : List UInt8 → Defect → Prop where
  | short {bytes : List UInt8} (hne : bytes ≠ []) (hlength : bytes.length < 3) :
      Refusal bytes (.truncated "pending width" 1)
  | flag {flag low high : UInt8} {rest : List UInt8} (hzero : flag ≠ 0) (hone : flag ≠ 1) :
      Refusal (flag :: low :: high :: rest) (.invalidPendingFlag flag)
  | width {low high : UInt8} {rest : List UInt8} (hwidth : wordOf low high ≠ 0) :
      Refusal (0 :: low :: high :: rest) (.strayPendingWidth (wordOf low high))
  | noDepth {flag low high : UInt8} (hagree : Agree flag (wordOf low high)) :
      Refusal [flag, low, high] (.truncated "stack depth" 3)
  | tooDeep {flag low high depth : UInt8} {rest : List UInt8}
      (hagree : Agree flag (wordOf low high)) (hdepth : 100 < depth.toNat) :
      Refusal (flag :: low :: high :: depth :: rest) (.depthOutOfRange depth)
  | noLevels {flag low high : UInt8} {rest : List UInt8} (hagree : Agree flag (wordOf low high)) :
      Refusal (flag :: low :: high :: 0 :: rest) .emptyStack
  | noBase {flag low high depth : UInt8} {rest : List UInt8}
      (hagree : Agree flag (wordOf low high)) (hdepth : 1 ≤ depth.toNat ∧ depth.toNat ≤ 100)
      (hrest : rest.length < 2) :
      Refusal (flag :: low :: high :: depth :: rest) (.truncated "indent level" headerSize)
  | base {flag low high depth baseLow baseHigh : UInt8} {rest : List UInt8}
      (hagree : Agree flag (wordOf low high)) (hdepth : 1 ≤ depth.toNat ∧ depth.toNat ≤ 100)
      (hbase : wordOf baseLow baseHigh ≠ 0) :
      Refusal (flag :: low :: high :: depth :: baseLow :: baseHigh :: rest)
        (.nonZeroBase (wordOf baseLow baseHigh))
  | level {flag low high depth : UInt8} {pairs : List (UInt8 × UInt8)} {l : Levels} {more : Nat}
      {rest : List UInt8} {d : Defect} (hagree : Agree flag (wordOf low high))
      (hdepth : 1 ≤ depth.toNat ∧ depth.toNat ≤ 100) (hlevels : l.toList = pairWords pairs)
      (hcount : pairs.length + more = depth.toNat) (hstops : Stops l more rest d) :
      Refusal (flag :: low :: high :: depth :: (pairBytes pairs ++ rest)) d

theorem agree_of_decodePending {flag : UInt8} {width : UInt16} {pending : Option UInt16}
    (h : decodePending flag width = .ok pending) : Agree flag width := by
  rcases decodePending_eq_ok_iff.1 h with ⟨hflag, hwidth, -⟩ | ⟨hflag, -⟩
  · exact .inl ⟨hflag, hwidth⟩
  · exact .inr hflag

theorem refusal_of_decodePending {flag low high : UInt8}
    (h : decodePending flag (wordOf low high) = .error d) :
    Refusal (flag :: low :: high :: rest) d := by
  rw [decodePending] at h
  split at h
  · rename_i hzero
    subst hzero
    split at h
    · cases h
    · rename_i hwidth
      obtain rfl := Except.error.inj h
      exact .width hwidth
  · rename_i hzero
    split at h
    · cases h
    · rename_i hone
      obtain rfl := Except.error.inj h
      exact .flag hzero hone

theorem refusal_of_decodeLevels {flag low high : UInt8} (hagree : Agree flag (wordOf low high))
    (h : decodeLevels rest = .error d) : Refusal (flag :: low :: high :: rest) d := by
  cases rest with
  | nil =>
      obtain rfl := Except.error.inj h
      exact .noDepth hagree
  | cons depth rest =>
      rw [decodeLevels.eq_def] at h
      dsimp only at h
      split at h
      · rename_i hmax
        obtain rfl := Except.error.inj h
        exact .tooDeep hagree hmax
      rename_i hmax
      split at h
      · rename_i hzero
        subst hzero
        obtain rfl := Except.error.inj h
        exact .noLevels hagree
      rename_i hzero
      have hdepth : 1 ≤ depth.toNat ∧ depth.toNat ≤ 100 := by
        refine ⟨?_, Nat.not_lt.1 hmax⟩
        rw [Nat.one_le_iff_ne_zero, ← UInt8.toNat_zero, Ne, UInt8.toNat_inj]
        exact hzero
      split at h
      · rename_i baseLow baseHigh rest
        split at h
        · rename_i hbase
          obtain ⟨pairs, l, rest, more, rfl, hlevels, hcount, hstops⟩ :=
            exists_stops_of_decodeOpened h
          show Refusal (flag :: low :: high :: depth ::
            (pairBytes ((baseLow, baseHigh) :: pairs) ++ rest)) d
          refine .level hagree hdepth ?_ ?_ hstops
          · rw [hlevels, pairWords_cons, hbase]
            rfl
          · rw [List.length_cons]
            omega
        · rename_i hbase
          obtain rfl := Except.error.inj h
          exact .base hagree hdepth hbase
      · rename_i hshort
        obtain rfl := Except.error.inj h
        refine .noBase hagree hdepth ?_
        rcases rest with _ | ⟨low, _ | ⟨high, rest⟩⟩
        · exact Nat.two_pos
        · exact Nat.one_lt_two
        · exact absurd rfl (hshort low high rest)

end Saved

theorem State.refusal_of_decode {bytes : List UInt8} {d : Defect}
    (h : State.decode bytes = .error d) : Refusal bytes d := by
  match bytes with
  | [] => cases h
  | [b] =>
    obtain rfl := Except.error.inj h
    exact .short (List.cons_ne_nil b []) (show 1 < 3 by decide)
  | [b, c] =>
    obtain rfl := Except.error.inj h
    exact .short (List.cons_ne_nil b [c]) (show 2 < 3 by decide)
  | flag :: low :: high :: rest =>
    rw [State.decode] at h
    cases hpending : decodePending flag (wordOf low high) with
    | error e =>
        rw [hpending] at h
        obtain rfl := Except.error.inj h
        exact refusal_of_decodePending hpending
    | ok pending =>
        cases hlevels : decodeLevels rest with
        | error e =>
            rw [hpending, hlevels] at h
            obtain rfl := Except.error.inj h
            exact refusal_of_decodeLevels (agree_of_decodePending hpending) hlevels
        | ok levels =>
            rw [hpending, hlevels] at h
            cases h

end Offside
