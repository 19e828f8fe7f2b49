import Mathlib.Data.List.TakeWhile
import Offside.Proofs.HexDigits

/-! What a text of digits is read as: its bytes, if it has a digit in every place and an even number
of them, and else the number of its digits, if that is odd, or the first character that is none. -/

namespace Offside

namespace Text

/-- The core of a text is what stands between the blanks around it. -/
structure IsCore (text core : List Char) : Prop where
  around : ∃ front back, text = front ++ core ++ back ∧ (∀ c ∈ front, isBlank c = true) ∧
    ∀ c ∈ back, isBlank c = true
  first : ∀ c ∈ core.head?, isBlank c = false
  last : ∀ c ∈ core.getLast?, isBlank c = false

theorem not_isBlank_of_mem_head?_dropWhile (text : List Char) {c : Char}
    (h : c ∈ (text.dropWhile isBlank).head?) : isBlank c = false := by
  have hnot := List.head?_dropWhile_not isBlank text
  rw [Option.mem_def.1 h] at hnot
  simpa using hnot

theorem isCore_trimBlanks (text : List Char) : IsCore text (trimBlanks text) := by
  have hfront := List.takeWhile_append_dropWhile (p := isBlank) (l := text)
  have hback := List.takeWhile_append_dropWhile (p := isBlank)
    (l := (text.dropWhile isBlank).reverse)
  have hrest : text.dropWhile isBlank =
      trimBlanks text ++ ((text.dropWhile isBlank).reverse.takeWhile isBlank).reverse := by
    rw [trimBlanks, ← List.reverse_append, hback, List.reverse_reverse]
  refine ⟨⟨text.takeWhile isBlank,
    ((text.dropWhile isBlank).reverse.takeWhile isBlank).reverse, ?_,
    fun c hc => List.mem_takeWhile_imp hc,
    fun c hc => List.mem_takeWhile_imp (List.mem_reverse.1 hc)⟩, fun c hc => ?_, fun c hc => ?_⟩
  · rw [List.append_assoc, ← hrest, hfront]
  · refine not_isBlank_of_mem_head?_dropWhile text ?_
    rw [hrest, List.head?_append, Option.mem_def.1 hc]
    rfl
  · rw [trimBlanks, List.getLast?_reverse] at hc
    exact not_isBlank_of_mem_head?_dropWhile _ hc

theorem dropWhile_isBlank_append {front rest : List Char} (hfront : ∀ c ∈ front, isBlank c = true)
    (hrest : ∀ c ∈ rest.head?, isBlank c = false) :
    (front ++ rest).dropWhile isBlank = rest := by
  rw [List.dropWhile_append_of_pos hfront]
  cases rest with
  | nil => rfl
  | cons c rest => exact List.dropWhile_cons_of_neg (by simpa using hrest)

theorem isCore_iff {text core : List Char} : IsCore text core ↔ core = trimBlanks text := by
  refine ⟨fun h => ?_, fun h => h ▸ isCore_trimBlanks text⟩
  obtain ⟨front, back, rfl, hfront, hback⟩ := h.around
  rw [trimBlanks, List.append_assoc]
  cases hcore : core with
  | nil =>
    rw [List.nil_append, List.dropWhile_append_of_pos hfront, ← List.append_nil back,
      dropWhile_isBlank_append hback (by simp)]
    rfl
  | cons c core' =>
    rw [← hcore]
    have hhead : ∀ c ∈ (core ++ back).head?, isBlank c = false := by
      have hfirst := h.first
      rw [hcore] at hfirst ⊢
      exact hfirst
    have hlast : ∀ c ∈ core.reverse.head?, isBlank c = false := by
      rw [List.head?_reverse]
      exact h.last
    have hback' : ∀ c ∈ back.reverse, isBlank c = true :=
      fun c hc => hback c (List.mem_reverse.1 hc)
    rw [dropWhile_isBlank_append hfront hhead, List.reverse_append,
      dropWhile_isBlank_append hback' hlast, List.reverse_reverse]

end Text

namespace Hex

/-- The digits of a text: of what stands between the blanks around it, one `0x` at the start is left
out, and then every blank and underscore. -/
def DigitsOf (text ds : List Char) : Prop :=
  ∃ core, Text.IsCore text core ∧
    ds = (if ['0', 'x'] <+: core then core.drop 2 else core).filter isKept

def hexDigits : List Char :=
  ['0', '1', '2', '3', '4', '5', '6', '7', '8', '9',
    'a', 'b', 'c', 'd', 'e', 'f', 'A', 'B', 'C', 'D', 'E', 'F']

/-- The first character that is no digit, and its index. -/
structure FirstStray (ds : List Char) (index : Nat) (c : Char) : Prop where
  getElem?_eq : ds[index]? = some c
  not_mem : c ∉ hexDigits
  mem_before : ∀ d ∈ ds.take index, d ∈ hexDigits

/-- What digits are read as. -/
inductive Reading (ds : List Char) : Except Error (List UInt8) → Prop where
  | bytes (bs : List UInt8) (heven : ds.length % 2 = 0) (hdigits : ∀ d ∈ ds, d ∈ hexDigits)
      (hlower : ds.map Char.toLower = encode bs) : Reading ds (.ok bs)
  | odd (hodd : ds.length % 2 = 1) : Reading ds (.error (.oddLength ds.length))
  | stray (index : Nat) (c : Char) (heven : ds.length % 2 = 0) (hstray : FirstStray ds index c) :
      Reading ds (.error (.invalidDigit index c))

/-! ### One digit -/

theorem value?_of_not_ascii {c : Char} (h : 128 ≤ c.toNat) : value? c = none := by
  have hle : ∀ d : Char, d.toNat < 128 → decide (c ≤ d) = false := by
    intro d hd
    rw [decide_eq_false_iff_not, Char.le_def, UInt32.le_iff_toNat_le]
    exact Nat.not_le.2 (Nat.lt_of_lt_of_le hd h)
  rw [value?, hle '9' (by decide), hle 'f' (by decide), hle 'F' (by decide)]
  simp

theorem value?_of_ascii : ∀ k < 128,
    (value? (.ofNat k) = none ∧ Char.ofNat k ∉ hexDigits) ∨
      ∃ n < 16, value? (.ofNat k) = some n ∧ Char.ofNat k ∈ hexDigits ∧
        digit n = (Char.ofNat k).toLower := by
  decide +kernel

/-- A digit of either case stands for the number whose digit is its lower-case form. -/
theorem value?_cases (c : Char) :
    (value? c = none ∧ c ∉ hexDigits) ∨
      ∃ n < 16, value? c = some n ∧ c ∈ hexDigits ∧ digit n = c.toLower := by
  by_cases h : c.toNat < 128
  · rw [← Char.ofNat_toNat c]
    exact value?_of_ascii c.toNat h
  · have hascii : hexDigits.all (·.toNat < 128) = true := by decide
    have hlt (hc : c ∈ hexDigits) : c.toNat < 128 := by simpa using List.all_eq_true.1 hascii c hc
    exact .inl ⟨value?_of_not_ascii (Nat.not_lt.1 h), fun hc => h (hlt hc)⟩

theorem of_value?_eq_some {c : Char} {n : Nat} (h : value? c = some n) :
    c ∈ hexDigits ∧ n < 16 ∧ digit n = c.toLower := by
  rcases value?_cases c with ⟨hnone, -⟩ | ⟨m, hm, hsome, hmem, hdigit⟩
  · rw [hnone] at h
    cases h
  · obtain rfl := Option.some.inj (hsome.symm.trans h)
    exact ⟨hmem, hm, hdigit⟩

theorem not_mem_of_value?_eq_none {c : Char} (h : value? c = none) : c ∉ hexDigits := by
  rcases value?_cases c with ⟨-, hmem⟩ | ⟨m, -, hsome, -⟩
  · exact hmem
  · rw [hsome] at h
    cases h

/-! ### All digits -/

theorem firstStray_zero {c : Char} (h : c ∉ hexDigits) (ds : List Char) :
    FirstStray (c :: ds) 0 c :=
  ⟨rfl, h, by simp⟩

theorem FirstStray.cons {d c : Char} {ds : List Char} {index : Nat} (hd : d ∈ hexDigits)
    (h : FirstStray ds index c) : FirstStray (d :: ds) (index + 1) c :=
  ⟨h.getElem?_eq, h.not_mem, by
    rw [List.take_succ_cons, List.forall_mem_cons]
    exact ⟨hd, h.mem_before⟩⟩

theorem FirstStray.not_forall {ds : List Char} {index : Nat} {c : Char}
    (h : FirstStray ds index c) : ¬ ∀ d ∈ ds, d ∈ hexDigits :=
  fun hall => h.not_mem (hall c (List.mem_of_getElem? h.getElem?_eq))

theorem FirstStray.le {ds : List Char} {i j : Nat} {c d : Char} (hi : FirstStray ds i c)
    (hj : FirstStray ds j d) : i ≤ j := by
  refine Nat.not_lt.1 fun hlt => hj.not_mem (hi.mem_before d ?_)
  exact List.mem_of_getElem? (i := j) (by rw [List.getElem?_take_of_lt hlt, hj.getElem?_eq])

theorem FirstStray.unique {ds : List Char} {i j : Nat} {c d : Char} (hi : FirstStray ds i c)
    (hj : FirstStray ds j d) : i = j ∧ c = d := by
  obtain rfl := Nat.le_antisymm (hi.le hj) (hj.le hi)
  exact ⟨rfl, Option.some.inj (hi.getElem?_eq.symm.trans hj.getElem?_eq)⟩

theorem encode_injective {bs bs' : List UInt8} (h : encode bs = encode bs') : bs = bs' := by
  have hdecode := decodeDigits_encode 0 bs
  rw [h, decodeDigits_encode] at hdecode
  exact (Except.ok.inj hdecode).symm

theorem Reading.unique {ds : List Char} {a b : Except Error (List UInt8)} (ha : Reading ds a)
    (hb : Reading ds b) : a = b := by
  cases ha with
  | bytes bs heven hdigits hlower =>
      cases hb with
      | bytes bs' _ _ hlower' => rw [encode_injective (hlower.symm.trans hlower')]
      | odd hodd => omega
      | stray i c _ hstray => exact absurd hdigits hstray.not_forall
  | odd hodd =>
      cases hb with
      | bytes => omega
      | odd => rfl
      | stray => omega
  | stray i c heven hstray =>
      cases hb with
      | bytes bs _ hdigits => exact absurd hdigits hstray.not_forall
      | odd hodd => omega
      | stray j d _ hstray' =>
          obtain ⟨rfl, rfl⟩ := hstray.unique hstray'
          rfl

theorem toNat_ofNat_pair {h l : Nat} (hh : h < 16) (hl : l < 16) :
    (UInt8.ofNat (16 * h + l)).toNat = 16 * h + l := by
  rw [UInt8.toNat_ofNat']
  exact Nat.mod_eq_of_lt (by omega)

/-- Pairs are read one by one, so what is found first is the first character that is no digit, in
either half of a pair. -/
theorem decodeDigits_cases (index : Nat) (ds : List Char) (heven : ds.length % 2 = 0) :
    (∃ bs, decodeDigits index ds = .ok bs ∧ (∀ d ∈ ds, d ∈ hexDigits) ∧
        ds.map Char.toLower = encode bs) ∨
      ∃ i c, decodeDigits index ds = .error (.invalidDigit (index + i) c) ∧ FirstStray ds i c := by
  fun_induction decodeDigits index ds with
  | case1 index high low rest h l hlow hhigh ih =>
      obtain ⟨hmem, hlt, hdigit⟩ := of_value?_eq_some hhigh
      obtain ⟨hmem', hlt', hdigit'⟩ := of_value?_eq_some hlow
      rcases ih (by rw [List.length_cons, List.length_cons] at heven; omega) with
        ⟨bs, hok, hdigits, hlower⟩ | ⟨i, c, herror, hstray⟩
      · refine .inl ⟨.ofNat (16 * h + l) :: bs, by rw [hok]; rfl, ?_, ?_⟩
        · rw [List.forall_mem_cons, List.forall_mem_cons]
          exact ⟨hmem, hmem', hdigits⟩
        · have hhigh : (16 * h + l) / 16 = h := by omega
          have hlow : (16 * h + l) % 16 = l := by omega
          rw [List.map_cons, List.map_cons, hlower, ← hdigit, ← hdigit', encode_cons,
            toNat_ofNat_pair hlt hlt', hhigh, hlow]
      · refine .inr ⟨i + 2, c, ?_, (hstray.cons hmem').cons hmem⟩
        rw [herror, Nat.add_right_comm]
        rfl
  | case2 index high low rest hhigh =>
      exact .inr ⟨0, high, rfl, firstStray_zero (not_mem_of_value?_eq_none hhigh) (low :: rest)⟩
  | case3 index high low rest h hlow hhigh =>
      have hstray := firstStray_zero (not_mem_of_value?_eq_none hlow) rest
      exact .inr ⟨1, low, rfl, hstray.cons (of_value?_eq_some hhigh).1⟩
  | case4 ds index hpair =>
      match ds with
      | [] => exact .inl ⟨[], rfl, by simp, rfl⟩
      | [_] => cases heven
      | high :: low :: rest => exact absurd rfl (hpair high low rest)

theorem reading_decode (text : List Char) : Reading (digits text) (decode text) := by
  rw [decode]
  split
  · rename_i hodd
    exact .odd hodd
  · rename_i hodd
    have heven : (digits text).length % 2 = 0 := by omega
    rcases decodeDigits_cases 0 (digits text) heven with
      ⟨bs, hok, hdigits, hlower⟩ | ⟨i, c, herror, hstray⟩
    · rw [hok]
      exact .bytes bs heven hdigits hlower
    · rw [herror, Nat.zero_add]
      exact .stray i c heven hstray

theorem decode_eq_iff_reading {text : List Char} {answer : Except Error (List UInt8)} :
    decode text = answer ↔ Reading (digits text) answer :=
  ⟨fun h => h ▸ reading_decode text, (reading_decode text).unique⟩

theorem digitsOf_iff {text ds : List Char} : DigitsOf text ds ↔ ds = digits text := by
  have hdigits : digits text = (if ['0', 'x'] <+: Text.trimBlanks text
      then (Text.trimBlanks text).drop 2 else Text.trimBlanks text).filter isKept := by
    rw [digits]
    split
    · rename_i rest htrim
      rw [htrim, if_pos ⟨rest, rfl⟩]
      rfl
    · rename_i hother
      rw [if_neg]
      · rfl
      · rintro ⟨rest, hrest⟩
        exact hother rest hrest.symm
  rw [hdigits]
  constructor
  · rintro ⟨core, hcore, rfl⟩
    rw [Text.isCore_iff.1 hcore]
  · rintro rfl
    exact ⟨_, Text.isCore_trimBlanks text, rfl⟩

theorem Spaced.refl (ds : List Char) : Spaced ds ds := by
  induction ds with
  | nil => exact .nil
  | cons d ds ih => exact .digit d ih

/-- **Digits are read exactly if they are written so.** Otherwise the first fault is named: an odd
number of digits, or, where their number is even, the first character that is none. -/
theorem decode_iff_grammar (text : List Char) :
    let ds := digits text
    (∀ ds', DigitsOf text ds' ↔ ds' = ds) ∧
      (∀ bs, decode text = .ok bs ↔
        ds.length % 2 = 0 ∧ (∀ d ∈ ds, d ∈ hexDigits) ∧ ds.map Char.toLower = encode bs) ∧
      (∀ n, decode text = .error (.oddLength n) ↔ ds.length % 2 = 1 ∧ n = ds.length) ∧
      (∀ i c, decode text = .error (.invalidDigit i c) ↔
        ds.length % 2 = 0 ∧ FirstStray ds i c) ∧
      ∀ bs, decode (encode bs) = .ok bs := by
  refine ⟨fun _ => digitsOf_iff, fun bs => ?_, fun n => ?_, fun i c => ?_, fun bs => ?_⟩
  · rw [decode_eq_iff_reading]
    refine ⟨fun h => ?_, fun ⟨heven, hdigits, hlower⟩ => .bytes bs heven hdigits hlower⟩
    cases h with
    | bytes _ heven hdigits hlower => exact ⟨heven, hdigits, hlower⟩
  · rw [decode_eq_iff_reading]
    refine ⟨fun h => ?_, fun ⟨hodd, hn⟩ => hn ▸ .odd hodd⟩
    cases h with
    | odd hodd => exact ⟨hodd, rfl⟩
  · rw [decode_eq_iff_reading]
    refine ⟨fun h => ?_, fun ⟨heven, hstray⟩ => .stray i c heven hstray⟩
    cases h with
    | stray _ _ heven hstray => exact ⟨heven, hstray⟩
  · have hread : decode ([] ++ encode bs) = .ok bs :=
      decode_of_spaced (.inl rfl) (.refl (encode bs))
    rwa [List.nil_append] at hread

/-- The `0x` is sought once, before the gaps are dropped, and the second half of a pair is found. -/
example : decode [' ', '0', 'x', '0', '_', 'A', '\n', '0', 'x'] = .error (.invalidDigit 3 'x') := by
  decide

end Hex

end Offside
