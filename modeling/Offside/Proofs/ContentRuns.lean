import Offside.Proofs.PieceCases

/-! The content of a text, character by character, and the spans where it stands: those of the runs
that nothing can be added to on either side. `ContentRuns.unique` says that they are one list, and
the lemmas behind it how that list grows at its front. -/

namespace Offside

/-! ### Which characters are content -/

/-- The characters of a text, each with whether it is content. The text follows on a character that
is part of a comment or not. A comment starts at two slashes outside of a comment, if comments are
dropped, and ends before a line feed. -/
def markContent (skipComments inComment : Bool) : List Char → List (Char × Bool)
  | [] => []
  | c :: cs =>
    let commented : Bool :=
      if inComment then c ≠ '\n' else skipComments && ['/', '/'].isPrefixOf (c :: cs)
    (c, c ∉ [' ', '\t', '\x0c', '\r', '\n'] && !commented) :: markContent skipComments commented cs

/-- The bytes of characters, each of which carries a mark. -/
def markedBytes (marked : List (Char × Bool)) : Nat := Text.byteLength (marked.map Prod.fst)

@[simp] theorem markedBytes_cons (c : Char × Bool) (marked : List (Char × Bool)) :
    markedBytes (c :: marked) = c.1.utf8Size + markedBytes marked := rfl

@[simp] theorem markedBytes_append (a b : List (Char × Bool)) :
    markedBytes (a ++ b) = markedBytes a + markedBytes b := by
  rw [markedBytes, List.map_append, Text.byteLength_append]
  rfl

theorem map_fst_marked (text : List Char) (content : Bool) :
    (text.map (·, content)).map Prod.fst = text := by
  rw [List.map_map]
  exact List.map_id text

theorem markedBytes_map (text : List Char) (content : Bool) :
    markedBytes (text.map (·, content)) = Text.byteLength text := by
  rw [markedBytes, map_fst_marked]

/-- The span of content that cannot be made longer: what is next to it on either side is none. The
text goes on at the offset `q`. -/
inductive MaximalRun (q : Nat) (marked : List (Char × Bool)) : Span → Prop where
  | mk {before run after : List (Char × Bool)} (hmarked : marked = before ++ run ++ after)
      (hne : run ≠ []) (hrun : ∀ c ∈ run, c.2 = true) (hbefore : ∀ c ∈ before.getLast?, c.2 = false)
      (hafter : ∀ c ∈ after.head?, c.2 = false) :
      MaximalRun q marked ⟨q + markedBytes before, q + markedBytes before + markedBytes run⟩

/-- The spans of the content of a text from the offset `q` on: those of all the runs that cannot be
made longer, from left to right. Put one behind the other, they hold each character of the content
once. -/
structure ContentRuns (text : List Char) (q : Nat) (marked : List (Char × Bool))
    (spans : List Span) : Prop where
  maximal : ∀ span, span ∈ spans ↔ MaximalRun q marked span
  ordered : spans.Pairwise (·.stop < ·.start)
  complete : (spans.flatMap fun span => (Text.slice? span.start span.stop text).getD []) =
    (marked.filter (·.2)).map (·.1)

variable {q : Nat} {marked rest : List (Char × Bool)} {span : Span}

/-! ### Runs that cannot be made longer -/

theorem MaximalRun.start_lt_stop (h : MaximalRun q marked span) : span.start < span.stop := by
  obtain ⟨-, hne, -⟩ := h
  obtain ⟨c, run, rfl⟩ := List.exists_cons_of_ne_nil hne
  have hpos := c.1.utf8Size_pos
  rw [markedBytes_cons]
  dsimp only
  omega

theorem MaximalRun.lt_start (h : MaximalRun q marked span)
    (hhead : ∀ c ∈ marked.head?, c.2 = false) : q < span.start := by
  obtain @⟨before, run, after, hmarked, hne, hrun, -, -⟩ := h
  obtain ⟨c, run, rfl⟩ := List.exists_cons_of_ne_nil hne
  cases before with
  | nil =>
      have hfalse := hhead c (by rw [hmarked]; rfl)
      rw [hrun c List.mem_cons_self] at hfalse
      cases hfalse
  | cons b before =>
      have hpos := b.1.utf8Size_pos
      rw [markedBytes_cons]
      dsimp only
      omega

theorem not_maximalRun_nil : ¬ MaximalRun q [] span := by
  rintro ⟨hmarked, hne, -⟩
  have hnil := List.append_eq_nil_iff.1 hmarked.symm
  exact hne (List.append_eq_nil_iff.1 hnil.1).2

theorem maximalRun_cons_of_false {c : Char × Bool} (hc : c.2 = false) :
    MaximalRun q (c :: rest) span ↔ MaximalRun (q + c.1.utf8Size) rest span := by
  have hbytes (before : List (Char × Bool)) :
      q + markedBytes (c :: before) = q + c.1.utf8Size + markedBytes before := by
    rw [markedBytes_cons, Nat.add_assoc]
  constructor
  · rintro @⟨before, run, after, hmarked, hne, hrun, hbefore, hafter⟩
    cases before with
    | nil =>
        obtain ⟨d, run, rfl⟩ := List.exists_cons_of_ne_nil hne
        obtain ⟨rfl, -⟩ := List.cons_eq_cons.1 hmarked
        rw [hrun c List.mem_cons_self] at hc
        cases hc
    | cons d before =>
        obtain ⟨rfl, rfl⟩ := List.cons_eq_cons.1 hmarked
        rw [hbytes]
        refine .mk rfl hne hrun (fun b hb => hbefore b ?_) hafter
        rw [List.getLast?_cons, hb]
        rfl
  · rintro @⟨before, run, after, rfl, hne, hrun, hbefore, hafter⟩
    rw [← hbytes]
    refine .mk rfl hne hrun (fun b hb => ?_) hafter
    rw [List.getLast?_cons] at hb
    cases hlast : before.getLast? with
    | none =>
        rw [hlast] at hb
        obtain rfl := Option.some.inj hb
        exact hc
    | some d =>
        rw [hlast] at hb
        obtain rfl := Option.some.inj hb
        exact hbefore _ hlast

theorem maximalRun_append_of_false {front : List (Char × Bool)} (h : ∀ c ∈ front, c.2 = false) :
    MaximalRun q (front ++ rest) span ↔ MaximalRun (q + markedBytes front) rest span := by
  induction front generalizing q with
  | nil => rfl
  | cons c front ih =>
      rw [List.forall_mem_cons] at h
      rw [List.cons_append, maximalRun_cons_of_false h.1, ih h.2, markedBytes_cons, Nat.add_assoc]

theorem takeWhile_of_run {run : List (Char × Bool)} (hrun : ∀ c ∈ run, c.2 = true)
    (hrest : ∀ c ∈ rest.head?, c.2 = false) : (run ++ rest).takeWhile (·.2) = run := by
  rw [List.takeWhile_append_of_pos hrun]
  cases rest with
  | nil => exact List.append_nil run
  | cons c rest =>
      have hc : c.2 = false := hrest c rfl
      rw [List.takeWhile_cons_of_neg (by rw [hc]; exact Bool.false_ne_true), List.append_nil]

theorem eq_nil_of_getLast?_false {front : List (Char × Bool)} (h : ∀ c ∈ front, c.2 = true)
    (hlast : ∀ c ∈ front.getLast?, c.2 = false) : front = [] := by
  cases hfront : front.getLast? with
  | none => exact List.getLast?_eq_none_iff.1 hfront
  | some c =>
      have htrue := h c (List.mem_of_getLast? hfront)
      rw [hlast c hfront] at htrue
      cases htrue

/-- Behind content at the start that cannot be made longer, the other runs are those of the rest. -/
theorem maximalRun_append_of_true {run : List (Char × Bool)} (hne : run ≠ [])
    (hrun : ∀ c ∈ run, c.2 = true) (hrest : ∀ c ∈ rest.head?, c.2 = false) :
    MaximalRun q (run ++ rest) span ↔
      span = ⟨q, q + markedBytes run⟩ ∨ MaximalRun (q + markedBytes run) rest span := by
  constructor
  · rintro @⟨before, run', after, hmarked, hne', hrun', hbefore, hafter⟩
    rw [List.append_assoc] at hmarked
    rcases List.append_eq_append_iff.1 hmarked with ⟨front, rfl, rfl⟩ | ⟨back, rfl, hback⟩
    · refine .inr ?_
      rw [markedBytes_append, ← Nat.add_assoc]
      refine .mk (List.append_assoc ..).symm hne' hrun' (fun c hc => hbefore c ?_) hafter
      rw [List.getLast?_append, hc]
      rfl
    · obtain rfl := eq_nil_of_getLast?_false
        (fun c hc => hrun c (List.mem_append_left back hc)) hbefore
      rw [List.nil_append] at hrun ⊢
      have hsame : run' = back := by
        rw [← takeWhile_of_run hrun' hafter, hback, takeWhile_of_run hrun hrest]
      exact .inl (hsame ▸ rfl)
  · rintro (rfl | @⟨before, run', after, rfl, hne', hrun', hbefore, hafter⟩)
    · exact @MaximalRun.mk q (run ++ rest) [] run rest rfl hne hrun (by simp) hrest
    · rw [Nat.add_assoc q, ← markedBytes_append]
      refine .mk (by simp) hne' hrun' (fun c hc => ?_) hafter
      cases before with
      | nil =>
          obtain ⟨d, run', rfl⟩ := List.exists_cons_of_ne_nil hne'
          have hfalse := hrest d rfl
          rw [hrun' d List.mem_cons_self] at hfalse
          cases hfalse
      | cons d before =>
          rw [List.getLast?_append, List.getLast?_cons] at hc
          refine hbefore c ?_
          rw [List.getLast?_cons]
          exact hc

/-! ### The spans of all runs -/

namespace ContentRuns

variable {text : List Char} {spans : List Span}

theorem nodup (h : ContentRuns text q marked spans) : spans.Nodup := by
  refine h.ordered.imp_of_mem ?_
  rintro span _ hspan - hlt rfl
  have hstart := ((h.maximal span).1 hspan).start_lt_stop
  omega

theorem unique {spans' : List Span} (h : ContentRuns text q marked spans)
    (h' : ContentRuns text q marked spans') : spans = spans' := by
  have hperm : spans.Perm spans' := by
    rw [List.perm_ext_iff_of_nodup h.nodup h'.nodup]
    intro span
    rw [h.maximal, h'.maximal]
  refine List.Perm.eq_of_pairwise ?_ h.ordered h'.ordered hperm
  intro a b ha hb hab hba
  have hstart := ((h.maximal a).1 ha).start_lt_stop
  have hstart' := ((h'.maximal b).1 hb).start_lt_stop
  omega

theorem nil (text : List Char) (q : Nat) : ContentRuns text q [] [] :=
  ⟨fun _ => iff_of_false List.not_mem_nil not_maximalRun_nil, .nil, rfl⟩

theorem append_of_false {front : List (Char × Bool)} (hfront : ∀ c ∈ front, c.2 = false)
    (h : ContentRuns text (q + markedBytes front) rest spans) :
    ContentRuns text q (front ++ rest) spans := by
  refine ⟨?_, h.ordered, ?_⟩
  · intro span
    rw [h.maximal, maximalRun_append_of_false hfront]
  · have hnone : front.filter (·.2) = [] := by
      rw [List.filter_eq_nil_iff]
      intro c hc
      rw [hfront c hc]
      exact Bool.false_ne_true
    rw [h.complete, List.filter_append, hnone, List.nil_append]

theorem append_of_true {run : List (Char × Bool)} (hne : run ≠ []) (hrun : ∀ c ∈ run, c.2 = true)
    (hrest : ∀ c ∈ rest.head?, c.2 = false)
    (hslice : Text.slice? q (q + markedBytes run) text = some (run.map Prod.fst))
    (h : ContentRuns text (q + markedBytes run) rest spans) :
    ContentRuns text q (run ++ rest) (⟨q, q + markedBytes run⟩ :: spans) := by
  refine ⟨?_, List.pairwise_cons.2 ⟨?_, h.ordered⟩, ?_⟩
  · intro span
    rw [List.mem_cons, h.maximal, maximalRun_append_of_true hne hrun hrest]
  · intro span hspan
    exact ((h.maximal span).1 hspan).lt_start hrest
  · rw [List.flatMap_cons, h.complete, hslice, List.filter_append, List.filter_eq_self.2 hrun,
      List.map_append, Option.getD_some]

end ContentRuns

/-! ### The content of a piece -/

open Outline

variable {skipComments : Bool} {taken text : List Char}

theorem isSeparator_eq_decide (c : Char) :
    isSeparator c = decide (c ∈ [' ', '\t', '\x0c', '\r', '\n']) := by
  simp [isSeparator, Bool.or_assoc]

theorem startsComment_eq_isPrefixOf (text : List Char) :
    startsComment text = ['/', '/'].isPrefixOf text := by
  rw [Bool.eq_iff_iff, startsComment_iff, List.isPrefixOf_iff_prefix]
  exact exists_congr fun rest => eq_comm

theorem markContent_cons (inComment : Bool) (c : Char) (cs : List Char) :
    markContent skipComments inComment (c :: cs) =
      let commented := if inComment then decide (c ≠ '\n')
        else skipComments && startsComment (c :: cs)
      (c, !isSeparator c && !commented) :: markContent skipComments commented cs := by
  rw [markContent, isSeparator_eq_decide, startsComment_eq_isPrefixOf, decide_not]

theorem markContent_separators {rest : List Char} (h : ∀ c ∈ taken, isSeparator c = true) :
    markContent skipComments false (taken ++ rest) =
      taken.map (·, false) ++ markContent skipComments false rest := by
  induction taken with
  | nil => rfl
  | cons c taken ih =>
      rw [List.forall_mem_cons] at h
      simp [markContent_cons, h.1, startsComment_of_isSeparator h.1, ih h.2]

theorem markContent_of_endsLine (h : EndsLine text) :
    markContent skipComments true text = markContent skipComments false text := by
  rcases h with rfl | ⟨rest, rfl⟩
  · rfl
  · simp [markContent_cons, startsComment_of_isSeparator isSeparator_lineFeed]

theorem markContent_line {rest : List Char} (h : UpTo EndsLine taken rest) :
    markContent skipComments true (taken ++ rest) =
      taken.map (·, false) ++ markContent skipComments true rest := by
  induction taken with
  | nil => rfl
  | cons c taken ih =>
      have hc := h.forall_ne (fun rest => .inr ⟨rest, rfl⟩) c List.mem_cons_self
      simp [markContent_cons, hc, ih h.tail]

theorem markContent_comment {rest : List Char} (hskip : skipComments = true)
    (hstart : startsComment (taken ++ rest) = true) (h : UpTo EndsLine taken rest) :
    markContent skipComments false (taken ++ rest) =
      taken.map (·, false) ++ markContent skipComments false rest := by
  rw [← markContent_of_endsLine h.1, ← markContent_line h]
  obtain ⟨text, htext⟩ := startsComment_iff.1 hstart
  rw [htext]
  simp [markContent_cons, hskip, startsComment]

theorem markContent_content {rest : List Char} (h : UpTo (EndsContent skipComments) taken rest) :
    markContent skipComments false (taken ++ rest) =
      taken.map (·, true) ++ markContent skipComments false rest := by
  induction taken with
  | nil => rfl
  | cons c taken ih =>
      have hgo := h.not_stop
      rw [List.cons_append, endsContent_cons_iff, Bool.or_eq_true, not_or, Bool.not_eq_true,
        Bool.not_eq_true] at hgo
      simp [markContent_cons, hgo.1, hgo.2, ih h.tail]

theorem head?_markContent_of_endsContent (h : EndsContent skipComments text) :
    ∀ c ∈ (markContent skipComments false text).head?, c.2 = false := by
  cases text with
  | nil => simp [markContent]
  | cons c cs =>
      rw [endsContent_cons_iff, Bool.or_eq_true] at h
      rcases h with h | h
      · simp [markContent_cons, h]
      · simp [markContent_cons, h]

namespace ContentRuns

variable {rest : List Char} {spans : List Span}

theorem of_dull (hdull : markContent skipComments false (taken ++ rest) =
      taken.map (·, false) ++ markContent skipComments false rest)
    (h : ContentRuns text (q + Text.byteLength taken) (markContent skipComments false rest) spans) :
    ContentRuns text q (markContent skipComments false (taken ++ rest)) spans := by
  rw [← markedBytes_map taken false] at h
  rw [hdull]
  exact h.append_of_false (by simp)

theorem of_content (hne : taken ≠ []) (htaken : UpTo (EndsContent skipComments) taken rest)
    (hslice : Text.slice? q (q + Text.byteLength taken) text = some taken)
    (h : ContentRuns text (q + Text.byteLength taken) (markContent skipComments false rest) spans) :
    ContentRuns text q (markContent skipComments false (taken ++ rest))
      (⟨q, q + Text.byteLength taken⟩ :: spans) := by
  have hbytes := markedBytes_map taken true
  rw [markContent_content htaken]
  rw [← hbytes] at h hslice ⊢
  refine append_of_true ?_ (by simp) (head?_markContent_of_endsContent htaken.1) ?_ h
  · exact fun hnil => hne (List.map_eq_nil_iff.1 hnil)
  · rw [hslice, map_fst_marked]

end ContentRuns

theorem Margins.forall_isSeparator {spaces tabs : Nat} (h : Margins text spaces tabs) :
    ∀ c ∈ text, isSeparator c = true := by
  have hmargin (spaces tabs : Nat) : ∀ c ∈ margin spaces tabs, isSeparator c = true := by
    intro c hc
    rcases List.mem_append.1 hc with h | h
    · rw [List.eq_of_mem_replicate h]
      rfl
    · rw [List.eq_of_mem_replicate h]
      rfl
  induction h with
  | last spaces tabs => exact hmargin spaces tabs
  | blank spaces tabs hending _ ih =>
      refine List.forall_mem_append.2 ⟨hmargin spaces tabs, List.forall_mem_cons.2 ⟨?_, ih⟩⟩
      rcases hending with rfl | rfl
      · rfl
      · rfl

theorem LongestBreak.forall_isSeparator {taken rest : List Char} {spaces tabs : Nat}
    (h : LongestBreak taken rest spaces tabs) : ∀ c ∈ taken, isSeparator c = true := by
  obtain ⟨margins, rfl, hmargins⟩ := h.isBreak
  exact List.forall_mem_cons.2 ⟨isSeparator_lineFeed, hmargins.forall_isSeparator⟩

end Offside
