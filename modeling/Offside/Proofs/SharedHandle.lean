import Mathlib.Logic.Function.Basic
import Offside.Host.Registry
import Offside.Proofs.Declined
import Offside.Proofs.SavedLevels

/-! Many parses that share one state of a host. Before each of its turns a parse recovers the state
from the bytes it saved, and saves it again if the turn gave a mark. No parse can tell that there are
others, or that its state is saved at all, while its levels fit into a saved state. -/

namespace Offside.Host

open Saved

/-- One of the parses: where its lexer stands, and the bytes of its state. -/
structure Parse where
  lexer : Lexer
  saved : List UInt8

/-- A turn of a parse. Its lexer may be moved before it asks for a mark. -/
structure Turn (ι : Type) where
  parse : ι
  move : Lexer → Lexer
  flags : List Bool

variable {ι : Type}

def Turn.accept (t : Turn ι) : MarkSet := .ofFlags t.flags

/-- What a turn of a parse comes to that has a handle of its own: whether there is a mark, the lexer
behind it, and the state that is left. -/
structure Answer where
  found : Bool
  lexer : Lexer
  state : Option State

/-- The answers to the turns of a parse that has a handle of its own and never saves its state. -/
def alone (handle : Nat) (r : Registry) (l : Lexer) : List (Turn ι) → List Answer
  | [] => []
  | t :: turns =>
    let (found, r, lexer) := r.ask (some handle) (some (t.move l)) (some t.flags)
    let lexer := lexer.getD (t.move l)
    ⟨found, lexer, r.get? (some handle)⟩ :: alone handle r lexer turns

theorem alone_cons {handle : Nat} {r : Registry} {s : State}
    (h : r.get? (some handle) = some s) (l : Lexer) (t : Turn ι) (turns : List (Turn ι)) :
    alone handle r l (t :: turns) =
      ⟨((t.move l).scan t.accept s).1, ((t.move l).scan t.accept s).2.2,
          some ((t.move l).scan t.accept s).2.1⟩ ::
        alone handle (r.put (some handle) (some ((t.move l).scan t.accept s).2.1))
          ((t.move l).scan t.accept s).2.2 turns := by
  rw [alone, Registry.ask_of_get? h, ← Turn.accept]
  dsimp only
  rw [Registry.get?_put h, Option.getD_some]

/-- A host with many parses: its states, the buffer that they are saved in, and the parses. -/
structure Desk (ι : Type) where
  registry : Registry
  buffer : List UInt8
  parses : ι → Parse

variable [DecidableEq ι]

/-- What a turn comes to: whether there is a mark, the lexer behind it, and the host. -/
def Desk.turn (handle : Nat) (d : Desk ι) (t : Turn ι) : Bool × Lexer × Desk ι :=
  let parse := d.parses t.parse
  let restored := d.registry.deserialize (some handle) (some parse.saved) parse.saved.length
  let moved := t.move parse.lexer
  let (found, registry, lexer) := restored.ask (some handle) (some moved) (some t.flags)
  let lexer := lexer.getD moved
  if found then
    let (written, buffer) := registry.serialize (some handle) (some d.buffer)
    let buffer := buffer.getD d.buffer
    let parse := ⟨lexer, buffer.take written⟩
    (found, lexer, ⟨registry, buffer, Function.update d.parses t.parse parse⟩)
  else
    let parse := ⟨lexer, parse.saved⟩
    (found, lexer, ⟨registry, d.buffer, Function.update d.parses t.parse parse⟩)

/-- The answers to some turns, each with the parse that it is for. -/
def Desk.run (handle : Nat) (d : Desk ι) : List (Turn ι) → List (ι × Bool × Lexer)
  | [] => []
  | t :: turns =>
    let (found, lexer, d) := d.turn handle t
    (t.parse, found, lexer) :: d.run handle turns

/-! ### A turn -/

namespace Desk

variable {handle : Nat} {d : Desk ι} {t : Turn ι} {i : ι} {l : Lexer} {s : State}

/-- The handle is that of a state, whatever was done to that before, and the buffer has its size. -/
def Ready (handle : Nat) (d : Desk ι) : Prop :=
  (∃ s, d.registry.get? (some handle) = some s) ∧ d.buffer.length = bufferSize

theorem turn_eq (h : d.Ready handle) (t : Turn ι) :
    ∃ registry buffer, Ready handle (⟨registry, buffer, d.parses⟩ : Desk ι) ∧
      d.turn handle t =
        let parse := d.parses t.parse
        let (found, state, lexer) := (t.move parse.lexer).scan t.accept (.recover parse.saved)
        let saved := if found then state.save bufferSize else parse.saved
        (found, lexer, ⟨registry, buffer, Function.update d.parses t.parse ⟨lexer, saved⟩⟩) := by
  obtain ⟨⟨s, hlive⟩, hbuffer⟩ := h
  have hrestored := Registry.get?_put (t := .recover (d.parses t.parse).saved) hlive
  rw [turn]
  dsimp only
  rw [Registry.deserialize_of_get? hlive, Registry.ask_of_get? hrestored, ← Turn.accept]
  dsimp only
  have hscanned := fun u => Registry.get?_put (t := u) hrestored
  obtain ⟨found, u, lexer⟩ :=
    (t.move (d.parses t.parse).lexer).scan t.accept (.recover (d.parses t.parse).saved)
  dsimp only
  cases found with
  | true =>
      rw [if_pos rfl, if_pos rfl, Registry.serialize_of_get? (hscanned u)]
      refine ⟨_, (u.saveInto d.buffer).2, ⟨⟨u, hscanned u⟩, ?_⟩, ?_⟩
      · rw [State.length_saveInto, hbuffer]
      · dsimp only
        rw [Option.getD_some, Option.getD_some, State.take_saveInto, hbuffer]
        rfl
  | false =>
      rw [if_neg Bool.false_ne_true, if_neg Bool.false_ne_true]
      exact ⟨_, d.buffer, ⟨⟨u, hscanned u⟩, hbuffer⟩, rfl⟩

theorem Ready.turn (h : d.Ready handle) (t : Turn ι) : Ready handle (d.turn handle t).2.2 := by
  obtain ⟨registry, buffer, hready, hturn⟩ := turn_eq h t
  rw [hturn]
  exact hready

/-- What a parse has saved is as good as the given state, and its lexer is the given one. -/
structure Follows (d : Desk ι) (i : ι) (l : Lexer) (s : State) : Prop where
  lexer_eq : (d.parses i).lexer = l
  reduced_eq : (State.recover (d.parses i).saved).reduced = s.reduced

theorem Follows.turn_of_ne (h : d.Follows i l s) (hready : d.Ready handle) (hne : i ≠ t.parse) :
    Follows (d.turn handle t).2.2 i l s := by
  obtain ⟨registry, buffer, -, hturn⟩ := turn_eq hready t
  rw [hturn]
  refine ⟨?_, ?_⟩
  · dsimp only
    rw [Function.update_of_ne hne]
    exact h.lexer_eq
  · dsimp only
    rw [Function.update_of_ne hne]
    exact h.reduced_eq

theorem Follows.turn_self (h : d.Follows t.parse l s) (hready : d.Ready handle)
    (hdepth : ((t.move l).scan t.accept s).2.1.levels.depth ≤ 100) :
    (d.turn handle t).1 = ((t.move l).scan t.accept s).1 ∧
      (d.turn handle t).2.1 = ((t.move l).scan t.accept s).2.2 ∧
      Follows (d.turn handle t).2.2 t.parse ((t.move l).scan t.accept s).2.2
        ((t.move l).scan t.accept s).2.1 := by
  obtain ⟨registry, buffer, -, hturn⟩ := turn_eq hready t
  dsimp only at hturn
  rw [h.lexer_eq, Lexer.scan_congr h.reduced_eq] at hturn
  have hdeclined := @Lexer.scan_of_not_found t.accept s (t.move l)
  generalize (t.move l).scan t.accept s = answer at hturn hdepth hdeclined ⊢
  obtain ⟨found, u, lexer⟩ := answer
  rw [hturn]
  dsimp only at hdepth hdeclined ⊢
  refine ⟨rfl, rfl, ?_, ?_⟩
  · dsimp only
    rw [Function.update_self]
  · dsimp only
    rw [Function.update_self]
    cases found with
    | true =>
        rw [if_pos rfl, State.recover_save_of_fits (by decide)]
        exact Nat.le_trans hdepth (by decide)
    | false =>
        -- The state of the call is dropped, and the one before is as good.
        rw [if_neg Bool.false_ne_true, h.reduced_eq]
        exact (hdeclined rfl).2.symm

end Desk

theorem run_filter_eq_alone {handle ownHandle : Nat} {i : ι} (schedule : List (Turn ι))
    {d : Desk ι} {own : Registry} {l : Lexer} {s : State} (hready : d.Ready handle)
    (hown : own.get? (some ownHandle) = some s) (hfollows : d.Follows i l s)
    (hfits : ∀ a ∈ alone ownHandle own l (schedule.filter (·.parse = i)), ∀ u ∈ a.state,
      u.levels.depth ≤ 100) :
    ((d.run handle schedule).filter (·.1 = i)).map (·.2) =
      (alone ownHandle own l (schedule.filter (·.parse = i))).map fun a => (a.found, a.lexer) := by
  induction schedule generalizing d own l s with
  | nil => rfl
  | cons t schedule ih =>
      rw [Desk.run]
      dsimp only
      by_cases hparse : t.parse = i
      · subst hparse
        rw [List.filter_cons_of_pos (by simp), List.filter_cons_of_pos (by simp),
          alone_cons hown]
        rw [List.filter_cons_of_pos (by simp), alone_cons hown] at hfits
        have hdepth := hfits _ List.mem_cons_self _ rfl
        obtain ⟨hfound, hlexer, hfollows'⟩ := hfollows.turn_self hready hdepth
        rw [List.map_cons, List.map_cons, hfound, hlexer]
        congr 1
        exact ih (hready.turn t) (Registry.get?_put hown) hfollows'
          fun a ha => hfits a (List.mem_cons_of_mem _ ha)
      · rw [List.filter_cons_of_neg (by simpa using hparse),
          List.filter_cons_of_neg (by simpa using hparse)]
        rw [List.filter_cons_of_neg (by simpa using hparse)] at hfits
        exact ih (hready.turn t) hown (hfollows.turn_of_ne hready (Ne.symm hparse)) hfits

/-- **One handle serves many parses.** Whatever the schedule of their turns, each parse gets the
answers that it would get with a handle of its own and without saving its state, if left to itself
it never has more levels open than are saved. -/
theorem shared_handle {registry : Registry} {handle : Nat} {leftover : State} {buffer : List UInt8}
    (hlive : registry.get? (some handle) = some leftover) (hbuffer : buffer.length = bufferSize)
    (lexers : ι → Lexer) (schedule : List (Turn ι)) (own : Registry) (i : ι)
    (hfits : ∀ a ∈ alone own.create.1 own.create.2 (lexers i) (schedule.filter (·.parse = i)),
      ∀ s ∈ a.state, s.levels.depth ≤ 100) :
    (((Desk.mk registry buffer fun j => ⟨lexers j, []⟩).run handle schedule).filter (·.1 = i)).map
        (·.2) =
      (alone own.create.1 own.create.2 (lexers i) (schedule.filter (·.parse = i))).map
        fun a => (a.found, a.lexer) :=
  run_filter_eq_alone schedule ⟨⟨leftover, hlive⟩, hbuffer⟩ own.get?_create ⟨rfl, rfl⟩ hfits

/-- Two parses take turns. Between the line break and the INDENT of either, the other one has the
handle, which starts with levels that are of neither. -/
theorem shared_handle_two_parses :
    let registry : Registry := ⟨#[none, some (.ofParts [0, 7] (some 3))]⟩
    let lexers : Bool → Lexer := fun j => .ofUnits (if j then [10, 32, 97] else [10, 9, 98]) 10
    let schedule : List (Turn Bool) :=
      [true, false, true, false, true].map fun j => ⟨j, id, [true, true, true]⟩
    let desk : Desk Bool := ⟨registry, List.replicate 1024 0, fun j => ⟨lexers j, []⟩⟩
    let answers := alone Registry.empty.create.1 Registry.empty.create.2 (lexers true)
      (schedule.filter (·.parse = true))
    registry.get? (some 1) = some (.ofParts [0, 7] (some 3)) ∧
      (∀ a ∈ answers, ∀ s ∈ a.state, s.levels.depth ≤ 100) ∧
      answers.map (fun a => (a.found, a.lexer.resultSymbol)) = [(true, 0), (true, 1), (false, 1)] ∧
      ((desk.run 1 schedule).filter (·.1 = true)).map (·.2) =
        answers.map fun a => (a.found, a.lexer) := by
  intro registry lexers schedule desk answers
  have hlive : registry.get? (some 1) = some (.ofParts [0, 7] (some 3)) := by decide +kernel
  have hfits : ∀ a ∈ answers, ∀ s ∈ a.state, s.levels.depth ≤ 100 := by decide +kernel
  refine ⟨hlive, hfits, by decide +kernel, ?_⟩
  exact shared_handle hlive (List.length_replicate ..) lexers schedule .empty true hfits

end Offside.Host
