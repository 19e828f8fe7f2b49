import Offside.Proofs.Ledger
import Offside.Proofs.Resumption
import Offside.Proofs.SessionEnd

/-! The marks of a session, counted. The depth follows the balance of INDENT and DEDENT, but for the
levels that checkpoints lose, and it is down to the base at the end where DEDENT is accepted. The
line feeds of the text bound the marks, and the session comes to its end. -/

namespace Offside

def Token.Kind.mark? : Token.Kind → Option Mark
  | mark m => some m
  | content => none

/-- The marks among some tokens. -/
def marksOf (tokens : List Token) : List Mark := tokens.filterMap (·.kind.mark?)

theorem marksOf_append (front back : List Token) :
    marksOf (front ++ back) = marksOf front ++ marksOf back :=
  List.filterMap_append

namespace Session

/-- Some tokens lead from one session to another, and their marks are paid for. Levels are lost at
checkpoints alone. -/
structure Leads (s : Session) (tokens : List Token) (u : Session) : Prop where
  config : u.config = s.config
  ledger : ∃ lost, (s.config.checkpoint = false → lost = 0) ∧
    Ledger s.state s.place.rest (marksOf tokens) lost u.state u.place.rest

variable {s t u : Session} {tokens tokens' : List Token}

theorem Leads.refl (s : Session) : Leads s [] s := ⟨rfl, 0, fun _ => rfl, .refl s.state _⟩

theorem Leads.trans (h : Leads s tokens t) (h' : Leads t tokens' u) :
    Leads s (tokens ++ tokens') u := by
  obtain ⟨hconfig, lost, hlost, hledger⟩ := h
  obtain ⟨hconfig', lost', hlost', hledger'⟩ := h'
  refine ⟨hconfig'.trans hconfig, lost + lost', fun hcheckpoint => ?_, ?_⟩
  · rw [hlost hcheckpoint, hlost' (hconfig ▸ hcheckpoint)]
  · rw [marksOf_append]
    exact hledger.trans hledger'

/-- The token of a step, if it gives one. -/
def Step.token? : Step → Option Token
  | token t _ => some t
  | dropped _ => none
  | finished _ => none

theorem leads_held (s : Session) : Leads s [] { s with state := s.held } := by
  refine ⟨rfl, ?_⟩
  dsimp only
  cases hcheckpoint : s.config.checkpoint with
  | false => exact ⟨0, fun _ => rfl, held_of_no_checkpoint hcheckpoint ▸ .refl s.state _⟩
  | true =>
      obtain ⟨lost, hledger⟩ := Ledger.recover s.config.capacity s.state s.place.rest
      rw [held, if_pos hcheckpoint]
      exact ⟨lost, fun h => Bool.noConfusion h, hledger⟩

section

variable {t : State} {n : Nat}

theorem leads_mark {m : Mark} (hmarks : marksOf tokens = [m])
    (hscan : scan Glyph.ofChar s.config.accept s.held s.place.rest = ⟨some m, t, n⟩) :
    Leads s tokens ⟨s.config, s.place.skip n, t⟩ := by
  have hledger := Ledger.scan s.config.accept s.held s.place.rest
  rw [hscan, Option.toList_some, ← hmarks] at hledger
  exact (leads_held s).trans ⟨rfl, 0, fun _ => rfl, hledger⟩

/-- A call without a mark consumes nothing, and what is passed behind it costs nothing. -/
theorem leads_declined (hmarks : marksOf tokens = [])
    (hscan : scan Glyph.ofChar s.config.accept s.held s.place.rest = ⟨none, t, n⟩) (k : Nat) :
    Leads s tokens ⟨s.config, s.place.skip k, t⟩ := by
  have hledger := Ledger.scan s.config.accept s.held s.place.rest
  have hzero := consumed_scan_of_mark_none Glyph.ofChar s.config.accept s.held s.place.rest
  rw [hscan] at hledger hzero
  rw [hzero rfl] at hledger
  have hskipped := hledger.trans (.skip t _ k)
  rw [Option.toList_none, List.append_nil, ← hmarks] at hskipped
  exact (leads_held s).trans ⟨rfl, 0, fun _ => rfl, hskipped⟩

end

theorem leads_step (s : Session) : Leads s s.step.token?.toList s.step.next := by
  have hcases := s.stepCases_step
  generalize s.step = step at hcases ⊢
  cases hcases with
  | mark hscan => exact leads_mark rfl hscan
  | content hscan => exact leads_declined rfl hscan _
  | dropped hscan => exact leads_declined rfl hscan _
  | finished hscan =>
      have hleads : Leads s [] _ := leads_declined rfl hscan 0
      rwa [Place.skip_zero] at hleads

theorem leads_next (s : Session) : Leads s s.next.1.toList s.next.2 := by
  induction s using next.induct with
  | case1 s t u h =>
      have hleads := leads_step s
      rw [h] at hleads
      rw [next, h]
      exact hleads
  | case2 s u h ih =>
      have hleads := leads_step s
      rw [h] at hleads
      rw [next, h]
      exact hleads.trans ih
  | case3 s u h =>
      have hleads := leads_step s
      rw [h] at hleads
      rw [next_of_finished h]
      exact hleads

/-- The first tokens of a session lead to where it stands behind as many calls. -/
theorem leads_after (s : Session) (n : Nat) : Leads s (s.drain.1.take n) (s.after n) := by
  induction n with
  | zero => exact .refl s
  | succ n ih =>
      rw [after_succ, List.take_add_one, ← next_after]
      exact ih.trans (leads_next _)

theorem leads_drain (s : Session) : Leads s s.drain.1 s.drain.2 := by
  have hleads := leads_after s (s.drain.1.length + 1)
  rwa [after_length_succ, List.take_of_length_le (Nat.le_succ _)] at hleads

section

variable {text rest : List Char} {offset : Nat}

theorem exists_resume (hoffset : Text.dropBytes? offset text = some rest) (saved : List UInt8)
    (config : Config) :
    resume text offset saved config = .ok ⟨config, ⟨offset, rest⟩, .recover saved⟩ := by
  refine resume_eq_ok_iff.2 ⟨⟨offset, rest⟩, ?_, rfl⟩
  rw [Place.at?, hoffset]
  rfl

/-- **Every opened level is closed.** A session that accepts DEDENT ends with the base alone.
Without checkpoints there is a DEDENT for each INDENT and for each level that was open at the start;
with checkpoints there are no more. -/
theorem levels_closed (hoffset : Text.dropBytes? offset text = some rest) (saved : List UInt8)
    {config : Config} (haccept : config.accept.dedent = true) :
    ∃ s, resume text offset saved config = .ok s ∧
      s.drain.2.state.levels.toList = [0] ∧
      (∀ n t, s.drain.1[n]? = some t → t.levels = (s.after (n + 1)).state.levels.toList) ∧
      (config.checkpoint = false →
        (∀ n, (s.after n).state.levels.depth + (marksOf (s.drain.1.take n)).count .dedent =
          (State.recover saved).levels.depth + (marksOf (s.drain.1.take n)).count .indent) ∧
        (marksOf s.drain.1).count .dedent + 1 =
          (marksOf s.drain.1).count .indent + (State.recover saved).levels.depth) ∧
      (config.checkpoint = true →
        (marksOf s.drain.1).count .dedent + 1 ≤
          (marksOf s.drain.1).count .indent + (State.recover saved).levels.depth) := by
  refine ⟨_, exists_resume hoffset saved config, ?_⟩
  generalize hs : (⟨config, ⟨offset, rest⟩, .recover saved⟩ : Session) = s
  have hconfig : s.config = config := by rw [← hs]
  have hstate : s.state = .recover saved := by rw [← hs]
  rw [← hstate]
  have hfinal : s.drain.2.config.accept.dedent = true := by
    rw [(leads_drain s).config, hconfig]
    exact haccept
  have hend := levels_of_finished s.step_drain hfinal
  have hbase : s.drain.2.state.levels.depth = 1 := by
    rw [← Levels.length_toList, hend]
    rfl
  obtain ⟨lost, hlost, hledger⟩ := (leads_drain s).ledger
  have hdedents := hledger.dedents
  refine ⟨hend, fun n t ht => ?_, fun hcheckpoint => ⟨fun n => ?_, ?_⟩, fun _ => ?_⟩
  · rw [← next_after] at ht
    rw [after_succ]
    exact levels_of_next ht
  · obtain ⟨lost, hlost, hledger⟩ := (leads_after s n).ledger
    have hdedents := hledger.dedents
    rw [hlost (hconfig ▸ hcheckpoint)] at hdedents
    omega
  · rw [hlost (hconfig ▸ hcheckpoint)] at hdedents
    omega
  · omega

/-- Two levels and a pending width are taken over in front of the last line. -/
theorem levels_closed_two_levels :
    let text := ['a', '\n', ' ', ' ', ' ', 'b']
    let saved : List UInt8 := [1, 3, 0, 2, 0, 0, 2, 0]
    Text.dropBytes? 5 text = some ['b'] ∧
      (∃ s, resume text 5 saved {} = .ok s ∧ s.drain.2.state.levels.toList = [0] ∧
        (marksOf s.drain.1).count .dedent + 1 = (marksOf s.drain.1).count .indent + 2) ∧
      ∃ s, resume text 5 saved { checkpoint := true, capacity := 6 } = .ok s ∧
        s.drain.2.state.levels.toList = [0] ∧
        (marksOf s.drain.1).count .dedent + 1 ≤ (marksOf s.drain.1).count .indent + 2 := by
  intro text saved
  have hoffset : Text.dropBytes? 5 text = some ['b'] := by decide
  have haccept : ({} : Config).accept.dedent = true := rfl
  have haccept' : ({ checkpoint := true, capacity := 6 } : Config).accept.dedent = true := rfl
  obtain ⟨s, hs, hend, -, hexact, -⟩ := levels_closed hoffset saved haccept
  obtain ⟨s', hs', hend', -, -, hbound⟩ := levels_closed hoffset saved haccept'
  exact ⟨hoffset, ⟨s, hs, hend, (hexact rfl).2⟩, s', hs', hend', hbound rfl⟩

/-- **Every session ends.** Its calls give the tokens of a list, and the line feeds left bound the
marks among them. Once a call has given none, the session stands at the end of the text, and no
further call changes anything. -/
theorem comes_to_end (hoffset : Text.dropBytes? offset text = some rest) (saved : List UInt8)
    (config : Config) :
    ∃ s, resume text offset saved config = .ok s ∧
      (∃ n ≤ s.weight, ∃ u, ((fun u => u.step.next)^[n] s).step = .finished u) ∧
      (∀ n, (s.after n).next.1 = s.drain.1[n]?) ∧
      (marksOf s.drain.1).count .newline ≤ rest.count '\n' ∧
      (marksOf s.drain.1).count .indent ≤ rest.count '\n' + 1 ∧
      (marksOf s.drain.1).count .dedent ≤
        rest.count '\n' + (State.recover saved).levels.depth ∧
      (∀ t ∈ s.drain.1, t.kind = .content → t.span.start < t.span.stop) ∧
      ∀ n, (s.after n).next.1 = none →
        (s.after n).next.2.place.offset = Text.byteLength text ∧
          ∀ k, ((s.after n).next.2.after k).next = (none, (s.after n).next.2) := by
  have hresume := exists_resume hoffset saved config
  refine ⟨_, hresume, ?_⟩
  have hstands := (Opens.resume hresume).standsIn
  generalize hs : (⟨config, ⟨offset, rest⟩, .recover saved⟩ : Session) = s at hstands
  have hrest : s.place.rest = rest := by rw [← hs]
  have hstate : s.state = .recover saved := by rw [← hs]
  obtain ⟨lost, -, hledger⟩ := (leads_drain s).ledger
  obtain ⟨hnewlines, hindents, hdedents⟩ := hledger.bounds
  rw [hrest] at hnewlines hindents hdedents
  rw [hstate] at hdedents
  refine ⟨exists_iterate_finished s, next_after s, hnewlines, hindents, hdedents,
    forall_drain (fun _ _ _ h => start_lt_stop_of_content h) s, fun n hnone => ?_⟩
  have hend := step_next_of_none hnone
  have hplace := standsIn_after hstands (n + 1)
  rw [after_succ] at hplace
  generalize (s.after n).next.2 = u at hend hplace
  refine ⟨?_, fun k => ?_⟩
  · obtain ⟨-, before, hbefore, hlength⟩ := Place.at?_eq_some_iff.1 hplace
    rw [rest_of_finished hend, List.append_nil] at hbefore
    rw [hbefore, hlength]
  · rw [after_of_finished hend, next_of_finished hend]

/-- Every checkpoint loses all of the state, the pending width at the start included. -/
theorem comes_to_end_two_tokens :
    let text := ['é', '\n', '\t', 'x', '/', '/']
    let saved : List UInt8 := [1, 4, 0]
    let config : Config := { checkpoint := true, capacity := 0 }
    let tokens : List Token := [⟨.mark .newline, ⟨4, 4⟩, [0]⟩, ⟨.content, ⟨4, 5⟩, [0]⟩]
    Text.dropBytes? 2 text = some ['\n', '\t', 'x', '/', '/'] ∧
      ∃ s, resume text 2 saved config = .ok s ∧ s.drain.1 = tokens ∧
        (∀ n, (s.after n).next.1 = tokens[n]?) ∧
        (marksOf tokens).count .newline ≤ 1 ∧ (marksOf tokens).count .indent ≤ 2 ∧
        (marksOf tokens).count .dedent ≤ 2 ∧ (s.after 2).next.1 = none ∧
        (s.after 2).next.2.place.offset = 7 ∧
        ∀ k, ((s.after 2).next.2.after k).next = (none, (s.after 2).next.2) := by
  intro text saved config tokens
  have hoffset : Text.dropBytes? 2 text = some ['\n', '\t', 'x', '/', '/'] := by decide
  obtain ⟨s, hs, -, hcalls, hnewlines, hindents, hdedents, -, hend⟩ :=
    comes_to_end hoffset saved config
  have htokens : s.drain.1 = tokens := by
    obtain rfl := Except.ok.inj (hs.symm.trans (exists_resume hoffset saved config))
    decide +kernel
  rw [htokens] at hcalls hnewlines hindents hdedents
  have hnone : (s.after 2).next.1 = none := hcalls 2
  exact ⟨hoffset, s, hs, htokens, hcalls, hnewlines, hindents, hdedents, hnone, hend 2 hnone⟩

end

end Session

end Offside
