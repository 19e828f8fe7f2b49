import Mathlib.Data.List.Forall2
import Offside.Token.Render

/-! Tokens that are rendered line by line. Whatever the text holds, no line holds a line feed but
the one it ends with, and a line says which kind of token it is for, where that stands and which
levels are open behind a mark. -/

namespace Offside

/-! ### Lists that are put together -/

section

variable {α : Type} {x : α}

/-- What stands before a separator and does not hold it is told from what stands behind it. -/
theorem append_cons_inj {a a' b b' : List α} (ha : x ∉ a) (ha' : x ∉ a') :
    a ++ x :: b = a' ++ x :: b' ↔ a = a' ∧ b = b' := by
  refine ⟨fun h => ?_, fun ⟨ha, hb⟩ => by rw [ha, hb]⟩
  induction a generalizing a' with
  | nil =>
      cases a' with
      | nil => exact ⟨rfl, (List.cons_eq_cons.1 h).2⟩
      | cons y a' =>
          obtain rfl : x = y := (List.cons_eq_cons.1 h).1
          exact absurd List.mem_cons_self ha'
  | cons y a ih =>
      cases a' with
      | nil =>
          obtain rfl : y = x := (List.cons_eq_cons.1 h).1
          exact absurd List.mem_cons_self ha
      | cons z a' =>
          obtain ⟨rfl, hrest⟩ := List.cons_eq_cons.1 h
          rw [List.mem_cons, not_or] at ha ha'
          obtain ⟨rfl, rfl⟩ := ih ha.2 ha'.2 hrest
          exact ⟨rfl, rfl⟩

theorem not_mem_intercalate {sep : List α} {items : List (List α)} (hsep : x ∉ sep)
    (hitems : ∀ item ∈ items, x ∉ item) : x ∉ sep.intercalate items := by
  induction items with
  | nil => simp
  | cons item items ih =>
      rw [List.forall_mem_cons] at hitems
      cases items with
      | nil => simpa using hitems.1
      | cons next items =>
          rw [List.intercalate_cons_cons, List.mem_append, List.mem_append, not_or, not_or]
          exact ⟨⟨hitems.1, hsep⟩, ih hitems.2⟩

theorem intercalate_cons_cons_eq (sep item next : List α) (items : List (List α)) :
    (x :: sep).intercalate (item :: next :: items) =
      item ++ x :: (sep ++ (x :: sep).intercalate (next :: items)) := by
  rw [List.intercalate_cons_cons, List.append_assoc, List.cons_append]

theorem intercalate_ne_nil {sep item : List α} (h : item ≠ []) (items : List (List α)) :
    sep.intercalate (item :: items) ≠ [] := by
  cases items with
  | nil => simpa using h
  | cons next items => simp [List.intercalate_cons_cons, h]

/-- Items that are not empty are told apart by a separator that starts with a member of none. -/
theorem intercalate_inj {sep : List α} {items items' : List (List α)}
    (hitems : ∀ item ∈ items, item ≠ [] ∧ x ∉ item)
    (hitems' : ∀ item ∈ items', item ≠ [] ∧ x ∉ item)
    (h : (x :: sep).intercalate items = (x :: sep).intercalate items') : items = items' := by
  induction items generalizing items' with
  | nil =>
      cases items' with
      | nil => rfl
      | cons item' items' =>
          have hne := (hitems' item' List.mem_cons_self).1
          exact absurd h.symm (intercalate_ne_nil hne items')
  | cons item items ih =>
      obtain ⟨⟨hne, hitem⟩, hrest⟩ := List.forall_mem_cons.1 hitems
      cases items' with
      | nil => exact absurd h (intercalate_ne_nil hne items)
      | cons item' items' =>
          obtain ⟨⟨-, hitem'⟩, hrest'⟩ := List.forall_mem_cons.1 hitems'
          cases items with
          | nil =>
              cases items' with
              | nil => simpa using h
              | cons next' items' =>
                  rw [List.intercalate_singleton, intercalate_cons_cons_eq] at h
                  exact absurd (h ▸ List.mem_append_right _ List.mem_cons_self) hitem
          | cons next items =>
              cases items' with
              | nil =>
                  rw [List.intercalate_singleton, intercalate_cons_cons_eq] at h
                  exact absurd (h ▸ List.mem_append_right _ List.mem_cons_self) hitem'
              | cons next' items' =>
                  rw [intercalate_cons_cons_eq, intercalate_cons_cons_eq,
                    append_cons_inj hitem hitem'] at h
                  rw [h.1, ih hrest hrest' (List.append_cancel_left h.2)]

end

/-! ### Numbers -/

theorem toDigits_ten_inj {m n : Nat} : Nat.toDigits 10 m = Nat.toDigits 10 n ↔ m = n := by
  refine ⟨fun h => ?_, fun h => h ▸ rfl⟩
  have hread := congrArg (Nat.ofDigitChars 10 · 0) h
  rwa [Nat.ofDigitChars_ten_toDigits, Nat.ofDigitChars_ten_toDigits] at hread

theorem not_mem_toDigits_ten {c : Char} (h : c.isDigit = false) (n : Nat) :
    c ∉ Nat.toDigits 10 n := by
  intro hc
  rw [Nat.isDigit_of_mem_toDigits (by decide) (by decide) hc] at h
  cases h

theorem not_mem_toDigits {base : Nat} (hbase : 1 < base) {c : Char}
    (h : ∀ k < base, Nat.digitChar k ≠ c) (n : Nat) : c ∉ Nat.toDigits base n := by
  induction n using Nat.strongRecOn with
  | ind n ih =>
      rw [Nat.toDigits_eq_if hbase]
      split
      · rename_i hlt
        simpa using (h n hlt).symm
      · rename_i hge
        have hdiv : n / base < n := Nat.div_lt_self (by omega) hbase
        rw [List.mem_append, not_or, List.mem_singleton]
        exact ⟨ih _ hdiv, (h _ (Nat.mod_lt n (by omega))).symm⟩

theorem toList_toString_nat (n : Nat) : (toString n).toList = Nat.toDigits 10 n := Nat.toList_repr

theorem toList_toString_width (w : UInt16) : (toString w).toList = Nat.toDigits 10 w.toNat :=
  Nat.toList_repr

/-! ### Widths -/

theorem toList_widthsText (ws : List UInt16) :
    (widthsText ws).toList =
      '[' :: ([',', ' '].intercalate (ws.map fun w => Nat.toDigits 10 w.toNat) ++ [']']) := by
  have hitems : (ws.map toString).map String.toList = ws.map fun w => Nat.toDigits 10 w.toNat := by
    rw [List.map_map]
    exact List.map_congr_left fun w _ => toList_toString_width w
  rw [widthsText, String.toList_append, String.toList_append, String.toList_intercalate, hitems]
  rfl

theorem widthsText_inj {ws ws' : List UInt16}
    (h : (widthsText ws).toList = (widthsText ws').toList) : ws = ws' := by
  have hitems (ws : List UInt16) : ∀ item ∈ ws.map (fun w => Nat.toDigits 10 w.toNat),
      item ≠ [] ∧ ',' ∉ item := by
    intro item hitem
    obtain ⟨w, -, rfl⟩ := List.mem_map.1 hitem
    exact ⟨Nat.toDigits_ne_nil, not_mem_toDigits_ten (by decide) _⟩
  rw [toList_widthsText, toList_widthsText] at h
  have hinner := List.append_cancel_right (List.cons_eq_cons.1 h).2
  refine List.map_injective_iff.2 ?_ (intercalate_inj (hitems ws) (hitems ws') hinner)
  exact fun w w' hw => UInt16.toNat_inj.1 (toDigits_ten_inj.1 hw)

/-! ### No line feed -/

theorem lineFeed_notMem_widthsText (ws : List UInt16) : '\n' ∉ (widthsText ws).toList := by
  have hinner : '\n' ∉ [',', ' '].intercalate (ws.map fun w => Nat.toDigits 10 w.toNat) := by
    refine not_mem_intercalate (by decide) fun item hitem => ?_
    obtain ⟨w, -, rfl⟩ := List.mem_map.1 hitem
    exact not_mem_toDigits_ten (by decide) _
  rw [toList_widthsText]
  simp [hinner]

namespace Text

theorem lineFeed_notMem_escape (quote c : Char) : '\n' ∉ escape quote c := by
  have hnumber : '\n' ∉ Nat.toDigits 16 c.toNat := not_mem_toDigits (by decide) (by decide) _
  rw [escape]
  split
  · decide
  split
  · decide
  split
  · decide
  split
  · decide
  rename_i hlineFeed _
  split
  · simpa using Ne.symm hlineFeed
  split
  · simp [hnumber]
  · simpa using Ne.symm hlineFeed

theorem lineFeed_notMem_quoted {quote : Char} (hquote : quote ≠ '\n') (text : List Char) :
    '\n' ∉ quoted quote text := by
  have hinner : '\n' ∉ text.flatMap (escape quote) := by
    intro h
    obtain ⟨c, -, hc⟩ := List.mem_flatMap.1 h
    exact lineFeed_notMem_escape quote c hc
  rw [quoted]
  simp [hinner, hquote.symm]

end Text

/-! ### Lines -/

namespace Token

/-- What two tokens agree in that are rendered as the same line. -/
structure SameLine (t t' : Token) : Prop where
  kind_eq : t.kind = t'.kind
  span_eq : t.span = t'.span
  levels_eq : t.kind.isMark = true → t.levels = t'.levels

/-- The line of a token without the line feed at its end. -/
def body (cut : Option (List Char)) (t : Token) : List Char :=
  padRight 7 t.kind.name.toList ++ ' ' :: (toString t.span.start).toList ++ ['.', '.'] ++
    (toString t.span.stop).toList ++ ' ' :: t.detail cut

/-- The line of a token of the given document, without the line feed at its end. -/
def bodyIn (text : List Char) (t : Token) : List Char :=
  t.body (Text.slice? t.span.start t.span.stop text)

theorem lineIn_eq (text : List Char) (t : Token) : t.lineIn text = t.bodyIn text ++ ['\n'] := rfl

theorem lineFeed_notMem_detail (cut : Option (List Char)) (t : Token) : '\n' ∉ t.detail cut := by
  rw [detail]
  split
  · exact lineFeed_notMem_widthsText t.levels
  · exact Text.lineFeed_notMem_quoted (by decide) _

theorem lineFeed_notMem_body (cut : Option (List Char)) (t : Token) : '\n' ∉ t.body cut := by
  have hname : '\n' ∉ padRight 7 t.kind.name.toList := by
    cases t.kind with
    | mark m => cases m <;> decide
    | content => decide
  have hnumber (n : Nat) : '\n' ∉ (toString n).toList := by
    rw [toList_toString_nat]
    exact not_mem_toDigits_ten (by decide) n
  simp only [body, List.mem_append, List.mem_cons, List.not_mem_nil, not_or]
  refine ⟨⟨⟨⟨hname, by decide, hnumber _⟩, by decide, by decide, not_false⟩, hnumber _⟩, by decide,
    lineFeed_notMem_detail cut t⟩

theorem lineFeed_notMem_bodyIn (text : List Char) (t : Token) : '\n' ∉ t.bodyIn text :=
  lineFeed_notMem_body _ t

theorem length_padRight_name (k : Kind) : (padRight 7 k.name.toList).length = 7 := by
  cases k with
  | mark m => cases m <;> rfl
  | content => rfl

theorem padRight_name_inj {k k' : Kind}
    (h : padRight 7 k.name.toList = padRight 7 k'.name.toList) : k = k' := by
  have hhead := congrArg List.head? h
  revert hhead
  cases k with
  | mark m =>
      cases k' with
      | mark m' => cases m <;> cases m' <;> decide
      | content => cases m <;> decide
  | content =>
      cases k' with
      | mark m' => cases m' <;> decide
      | content => decide

theorem sameLine_of_body_eq {cut cut' : Option (List Char)} {t t' : Token}
    (h : t.body cut = t'.body cut') : SameLine t t' := by
  obtain ⟨kind, ⟨start, stop⟩, levels⟩ := t
  obtain ⟨kind', ⟨start', stop'⟩, levels'⟩ := t'
  have hdot (n : Nat) : '.' ∉ (toString n).toList := by
    rw [toList_toString_nat]
    exact not_mem_toDigits_ten (by decide) n
  have hspace (n : Nat) : ' ' ∉ (toString n).toList := by
    rw [toList_toString_nat]
    exact not_mem_toDigits_ten (by decide) n
  have hnumber {m n : Nat} (h : (toString m).toList = (toString n).toList) : m = n := by
    rwa [toList_toString_nat, toList_toString_nat, toDigits_ten_inj] at h
  simp only [body, List.append_assoc, List.cons_append, List.nil_append] at h
  obtain ⟨hname, h⟩ := List.append_inj h (by rw [length_padRight_name, length_padRight_name])
  obtain ⟨hstart, h⟩ := (append_cons_inj (hdot start) (hdot start')).1 (List.cons_eq_cons.1 h).2
  obtain ⟨hstop, hdetail⟩ :=
    (append_cons_inj (hspace stop) (hspace stop')).1 (List.cons_eq_cons.1 h).2
  obtain rfl := padRight_name_inj hname
  obtain rfl := hnumber hstart
  obtain rfl := hnumber hstop
  refine ⟨rfl, rfl, fun hmark => widthsText_inj ?_⟩
  rw [detail, detail, if_pos hmark, if_pos hmark] at hdetail
  exact hdetail

theorem SameLine.bodyIn_eq {t t' : Token} (h : SameLine t t') (text : List Char) :
    t.bodyIn text = t'.bodyIn text := by
  obtain ⟨kind, span, levels⟩ := t
  obtain ⟨kind', span', levels'⟩ := t'
  obtain ⟨rfl, rfl, hlevels⟩ := h
  cases kind with
  | mark m =>
      obtain rfl := hlevels rfl
      rfl
  | content => rfl

end Token

/-! ### Renderings -/

theorem render_cons (text : List Char) (t : Token) (tokens : List Token) :
    render text (t :: tokens) = t.bodyIn text ++ '\n' :: render text tokens := by
  rw [render_eq_flatMap, render_eq_flatMap, List.flatMap_cons, Token.lineIn_eq, List.append_assoc]
  rfl

theorem render_eq_flatMap_lines (text : List Char) (tokens : List Token) :
    render text tokens = (tokens.map (Token.bodyIn text)).flatMap (· ++ ['\n']) := by
  rw [render_eq_flatMap, List.flatMap_map]
  rfl

theorem render_eq_render_iff {text : List Char} {tokens tokens' : List Token} :
    render text tokens = render text tokens' ↔ List.Forall₂ Token.SameLine tokens tokens' := by
  constructor
  · intro h
    induction tokens generalizing tokens' with
    | nil =>
        cases tokens' with
        | nil => exact .nil
        | cons t' tokens' =>
            rw [render_cons] at h
            exact absurd h.symm (List.append_ne_nil_of_right_ne_nil _ (List.cons_ne_nil _ _))
    | cons t tokens ih =>
        cases tokens' with
        | nil =>
            rw [render_cons] at h
            exact absurd h (List.append_ne_nil_of_right_ne_nil _ (List.cons_ne_nil _ _))
        | cons t' tokens' =>
            rw [render_cons, render_cons, append_cons_inj (Token.lineFeed_notMem_bodyIn text t)
              (Token.lineFeed_notMem_bodyIn text t')] at h
            exact .cons (Token.sameLine_of_body_eq h.1) (ih h.2)
  · intro h
    induction h with
    | nil => rfl
    | cons hline _ ih => rw [render_cons, render_cons, hline.bodyIn_eq text, ih]

/-- **A rendering has one line for each token, and tells all that the lines show.** Tokens of one
text are rendered the same exactly if they agree one by one in the kind, the span and, for marks,
the levels. -/
theorem render_lines (text : List Char) (tokens tokens' : List Token) :
    (∃ lines, render text tokens = lines.flatMap (· ++ ['\n']) ∧
        List.Forall₂ (fun t line => render text [t] = line ++ ['\n'] ∧ '\n' ∉ line) tokens lines) ∧
      (render text tokens = render text tokens' ↔
        List.Forall₂ Token.SameLine tokens tokens') := by
  refine ⟨⟨tokens.map (Token.bodyIn text), render_eq_flatMap_lines text tokens, ?_⟩,
    render_eq_render_iff⟩
  rw [List.forall₂_map_right_iff, List.forall₂_same]
  exact fun t _ => ⟨render_cons text t [], Token.lineFeed_notMem_bodyIn text t⟩

/-- A text that holds a line of its own stays on the line of its token. -/
example : render ['\n', '"'] [⟨.content, ⟨0, 2⟩, []⟩] = "CONTENT 0..2 \"\\n\\\"\"\n".toList := by
  decide

end Offside
