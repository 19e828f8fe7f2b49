import Offside.Proofs.ContentRuns
import Offside.Proofs.OutlineRun

/-! A text with another one behind it. If the first one ends in no separator and the other starts with
one, the tokens of the first come first, but for the levels that its end closes: every line break of
it is read as before, and so is every piece but a comment at its end, which goes on. -/

namespace Offside

namespace Outline

theorem kind_and_span_of_mem_dedents {q : Nat} {closed kept : List UInt16} {t : Token}
    (h : t ∈ dedents q closed kept) : t.kind = .mark .dedent ∧ t.span = ⟨q, q⟩ := by
  induction closed with
  | nil => cases h
  | cons w closed ih =>
      rcases List.mem_cons.1 h with rfl | h
      · exact ⟨rfl, rfl⟩
      · exact ih h

theorem span_of_mem_marksAt {q : Nat} {width : UInt16} {levels : List UInt16} {t : Token}
    (h : t ∈ marksAt q width levels) : t.span = ⟨q, q⟩ := by
  rw [marksAt] at h
  split at h
  · rw [List.mem_singleton.1 h]
    rfl
  · exact (kind_and_span_of_mem_dedents h).2

end Outline

open Outline

namespace Session

/-- What is read of a text that goes on at the given offset with the given levels open: tokens that
start before its end and come first too if there is more text behind it, and then a DEDENT for each
level that is still open. -/
structure ReadThrough (capacity : Nat) (skipComments : Bool) (q : Nat) (text : List Char) (l : Levels)
    (front : List Token) (opened : List UInt16) : Prop where
  alone : (plain capacity skipComments ⟨q, text⟩ ⟨l, none⟩).drain.1 =
    front ++ dedents (q + Text.byteLength text) opened [0]
  start_lt : ∀ t ∈ front, t.span.start < q + Text.byteLength text
  appended : ∀ behind, Separates behind →
    front <+: (plain capacity skipComments ⟨q, text ++ behind⟩ ⟨l, none⟩).drain.1

variable {capacity : Nat} {skipComments : Bool} {q : Nat} {taken rest : List Char} {l l' : Levels}
  {front : List Token} {opened : List UInt16}

theorem ReadThrough.of_dropped (q : Nat) (l : Levels)
    (h : (plain capacity skipComments ⟨q, taken⟩ ⟨l, none⟩).drain.1 =
      (plain capacity skipComments ⟨q + Text.byteLength taken, []⟩ ⟨l, none⟩).drain.1) :
    ReadThrough capacity skipComments q taken l [] l.opened :=
  ⟨h.trans (drain_plain_end _ l), by simp, fun _ _ => List.nil_prefix⟩

/-- The first part of a text gives the given tokens, however the rest goes on. -/
theorem ReadThrough.append {taken : List Char}
    (h : ReadThrough capacity skipComments (q + Text.byteLength taken) rest l' front opened)
    (tokens : List Token)
    (hstart : ∀ t ∈ tokens, t.span.start < q + Text.byteLength (taken ++ rest))
    (htaken : ∀ behind, Separates behind →
      (plain capacity skipComments ⟨q, taken ++ (rest ++ behind)⟩ ⟨l, none⟩).drain.1 =
        tokens ++
          (plain capacity skipComments ⟨q + Text.byteLength taken, rest ++ behind⟩
            ⟨l', none⟩).drain.1) :
    ReadThrough capacity skipComments q (taken ++ rest) l (tokens ++ front) opened := by
  have hbytes : q + Text.byteLength taken + Text.byteLength rest =
      q + Text.byteLength (taken ++ rest) := by rw [Text.byteLength_append, Nat.add_assoc]
  refine ⟨?_, List.forall_mem_append.2 ⟨hstart, hbytes ▸ h.start_lt⟩, fun behind hbehind => ?_⟩
  · have halone := htaken [] separates_nil
    rw [List.append_nil] at halone
    rw [halone, h.alone, List.append_assoc, hbytes]
  · rw [List.append_assoc, htaken behind hbehind]
    exact (List.prefix_append_right_inj tokens).2 (h.appended behind hbehind)

theorem exists_readThrough (q : Nat) (text : List Char) (l : Levels)
    (hlast : ∀ c ∈ text.getLast?, isSeparator c = false) :
    ∃ front opened, ReadThrough capacity skipComments q text l front opened := by
  have hrest (taken rest : List Char) (hlast : ∀ c ∈ (taken ++ rest).getLast?, isSeparator c = false) :
      ∀ c ∈ rest.getLast?, isSeparator c = false := by
    intro c hc
    refine hlast c ?_
    rw [List.getLast?_append, hc]
    rfl
  have hlt (q : Nat) {text : List Char} (hne : text ≠ []) : q < q + Text.byteLength text :=
    Nat.lt_add_of_pos_right (Nat.pos_of_ne_zero (mt Text.byteLength_eq_zero_iff.1 hne))
  induction text using reading_induction skipComments generalizing q l with
  | nil => exact ⟨[], l.opened, .of_dropped q l rfl⟩
  | lineBreak margins rest s t hbreak ih =>
      -- The last character of the text is behind the line break, which thus ends where it did.
      have hne : rest ≠ [] := by
        rintro rfl
        rw [List.append_nil, List.getLast?_cons] at hlast
        have hseparator := hbreak.forall_isSeparator _ (List.mem_of_getLast? List.getLast?_cons)
        rw [hlast _ rfl] at hseparator
        cases hseparator
      obtain ⟨front, opened, hread⟩ := ih (q + Text.byteLength ('\n' :: margins))
        (l.fit (columns s t)) (hrest _ rest hlast)
      have hstart := hlt (q + Text.byteLength ('\n' :: margins)) hne
      rw [Nat.add_assoc, ← Text.byteLength_append] at hstart
      refine ⟨_, opened, hread.append (markAt (q + Text.byteLength ('\n' :: margins)) .newline
        (l.opened ++ [0]) :: marksAt (q + Text.byteLength ('\n' :: margins)) (columns s t)
          (l.opened ++ [0])) ?_ fun behind _ => ?_⟩
      · refine List.forall_mem_cons.2 ⟨hstart, fun t ht => ?_⟩
        rw [span_of_mem_marksAt ht]
        exact hstart
      · rw [drain_plain_of_break q l (hbreak.append hne behind), drain_plain_of_pending,
          List.cons_append]
  | separator c rest hseparator hlineFeed ih =>
      obtain ⟨front, opened, hread⟩ := ih (q + Text.byteLength [c]) l (hrest [c] rest hlast)
      refine ⟨front, opened, hread.append [] (by simp) fun behind _ => ?_⟩
      exact congrArg Prod.fst (drain_plain_of_separator q (rest ++ behind) l hseparator hlineFeed)
  | comment taken rest hskip hstart htaken ih =>
      rcases htaken.1 with rfl | ⟨x, rfl⟩
      · -- With more text behind it the comment may go on, but it gives no token there either.
        refine ⟨[], l.opened, .of_dropped q l ?_⟩
        rw [drain_plain_of_comment q l hskip hstart htaken, List.append_nil]
      · obtain ⟨front, opened, hread⟩ := ih (q + Text.byteLength taken) l (hrest taken _ hlast)
        refine ⟨front, opened, hread.append [] (by simp) fun behind _ => ?_⟩
        have htaken' : UpTo EndsLine taken ('\n' :: x ++ behind) :=
          upTo_endsLine_iff.2 ⟨.inr ⟨x ++ behind, rfl⟩, (upTo_endsLine_iff.1 htaken).2⟩
        obtain ⟨text, htext⟩ := hstart
        have hstart' : ∃ text, taken ++ ('\n' :: x ++ behind) = '/' :: '/' :: text :=
          ⟨text ++ behind, by rw [← List.append_assoc, htext]; rfl⟩
        exact congrArg Prod.fst (drain_plain_of_comment q l hskip hstart' htaken')
  | content taken rest hne htaken ih =>
      obtain ⟨front, opened, hread⟩ := ih (q + Text.byteLength taken) l (hrest taken rest hlast)
      refine ⟨_, opened, hread.append [⟨.content, ⟨q, q + Text.byteLength taken⟩, l.toList⟩]
        ?_ fun behind hbehind => ?_⟩
      · exact List.forall_mem_singleton.2 (hlt q (List.append_ne_nil_of_left_ne_nil hne rest))
      · exact drain_plain_of_content q l hne
          ((UpTo.append_iff (endsContent_append_iff hbehind)).2 htaken)

end Session

/-- **More text behind a text does not change what came before.** If the text does not end in white
space and what is behind it starts with some, the tokens that start before its end are also the first
of the whole, and all others are DEDENT at its end. -/
theorem lex_append (capacity : Nat) (skipComments : Bool) (text behind : List Char)
    (htext : ∀ c ∈ text.getLast?, c ∉ [' ', '\t', '\x0c', '\r', '\n'])
    (hbehind : ∀ c ∈ behind.head?, c ∈ [' ', '\t', '\x0c', '\r', '\n']) :
    let config : Config := ⟨.full, false, capacity, skipComments⟩
    let settled := (lex config text).filter (·.span.start < Text.byteLength text)
    settled <+: lex config (text ++ behind) ∧
      ∃ closing, lex config text = settled ++ closing ∧
        ∀ t ∈ closing, t.kind = .mark .dedent ∧
          t.span = ⟨Text.byteLength text, Text.byteLength text⟩ := by
  intro config settled
  have hlast : ∀ c ∈ text.getLast?, isSeparator c = false := by
    intro c hc
    rw [isSeparator_eq_decide, decide_eq_false (htext c hc)]
  have hseparates : Separates behind := by
    intro c hc
    rw [isSeparator_eq_decide, decide_eq_true (hbehind c hc)]
  obtain ⟨front, opened, hread⟩ := Session.exists_readThrough 0 text .base hlast
  have halone : lex config text = front ++ dedents (Text.byteLength text) opened [0] := by
    rw [← Nat.zero_add (Text.byteLength text)]
    exact hread.alone
  have hclosing {t : Token} (h : t ∈ dedents (Text.byteLength text) opened [0]) :=
    kind_and_span_of_mem_dedents h
  have hsettled : settled = front := by
    show (lex config text).filter _ = front
    rw [halone, List.filter_append, List.filter_eq_self.2, List.filter_eq_nil_iff.2, List.append_nil]
    · intro t ht
      simp [(hclosing ht).2]
    · intro t ht
      have hlt := hread.start_lt t ht
      rw [Nat.zero_add] at hlt
      exact decide_eq_true hlt
  rw [hsettled]
  exact ⟨hread.appended behind hseparates, _, halone, fun t ht => hclosing ht⟩

/-- The first text ends in a comment, which goes on behind it. -/
theorem lex_append_comment :
    let text := ['é', '\n', ' ', 'x', '/', '/', 'y']
    let behind := [' ', 'z', '\n', '\t', 'w']
    let settled : List Token :=
      [⟨.content, ⟨0, 2⟩, [0]⟩, ⟨.mark .newline, ⟨4, 4⟩, [0]⟩, ⟨.mark .indent, ⟨4, 4⟩, [0, 1]⟩,
        ⟨.content, ⟨4, 5⟩, [0, 1]⟩]
    settled <+: lex {} (text ++ behind) ∧
      ∃ closing, lex {} text = settled ++ closing ∧
        ∀ t ∈ closing, t.kind = .mark .dedent ∧ t.span = ⟨8, 8⟩ := by
  intro text behind settled
  have hsettled : (lex {} text).filter (·.span.start < Text.byteLength text) = settled := by
    decide +kernel
  rw [← hsettled]
  refine lex_append Saved.bufferSize true text behind (fun c hc => ?_) (fun c hc => ?_)
  · obtain rfl : 'y' = c := Option.some.inj hc
    decide
  · obtain rfl : ' ' = c := Option.some.inj hc
    decide

end Offside
