import LocalStorage.Sample
import LocalStorage.Service

namespace LocalStorage.Proofs.RequestLimit
open Lib Service

/-! # How many requests run at once -/

/-- The running requests to the limited routes. -/
def inProgress (s : Server) : Nat :=
  s.slots.countP fun slot => slot.isRunning && slot.label.limited

variable {app : App} {w : World} {s t : Server} {es : List ServerEvent}

theorem run_accounted
    (hrun : ServerRun app (Gated.opened maxConcurrentRequests w) es s) :
    Accounted Call.limited maxConcurrentRequests s :=
  (Accounted.opened w).run hrun

/-- What a request that comes now is told. -/
def TurnedAway (app : App) (s : Server) (call : Call) : Prop :=
  ∀ t, GateEvent.Transition (execService app.storage.host) Drift.Transition Call.limited
    (.arrive call (call.task app)) s t → t.slots.getLast?.any Slot.isRejected = true

theorem turnedAway_iff {call : Call} :
    TurnedAway app s call ↔
      (accept Call.limited s.free call (call.task app)).1.isRejected = true := by
  constructor
  · intro h
    simpa using h _ rfl
  · rintro h t rfl
    simpa using h

/-- At most a hundred requests to the limited routes are in progress, whatever came, went on,
ended or was dropped before. Every other permit is free; a request is turned away exactly when
it needs a permit and a hundred are in progress, and none that needs no permit ever was. -/
theorem requests_limited (hrun : ServerRun app (Gated.opened maxConcurrentRequests w) es s) :
    s.free + inProgress s = maxConcurrentRequests ∧
      (∀ call, TurnedAway app s call ↔
        call.limited = true ∧ inProgress s = maxConcurrentRequests) ∧
      ∀ slot ∈ s.slots, slot.isRejected = true → slot.label.limited = true := by
  have h := run_accounted hrun
  have hcount : s.holders = inProgress s := h.holders_eq
  refine ⟨?_, fun call => ?_, ?_⟩
  · rw [← hcount]
    exact h.total
  · rw [turnedAway_iff, h.rejected_iff, hcount]
  · intro slot hmem hrejected
    cases slot with
    | rejected call => exact h.turned call hmem
    | running call held p => simp [Slot.isRejected] at hrejected
    | finished call => simp [Slot.isRejected] at hrejected

/-! ## A crowd -/

def app₀ : App where
  state := ⟨Sample.manager, none, none⟩
  text := ⟨some, fun bytes => bytes.map Char.ofUInt8⟩
  parseDelete _ := .ok []

def uploadCall : Call := .uploadFile "a" ⟨none, none, none, none, none, none⟩ [] ⟨[], none⟩

/-- That many requests for the statistics, all of them still running. -/
def crowd (n : Nat) : Server where
  free := maxConcurrentRequests - n
  slots := List.replicate n (.running .getStorageStats true (Call.getStorageStats.task app₀))
  state := World.empty

theorem crowd_gathers {n : Nat} (hn : n ≤ maxConcurrentRequests) : ∃ es,
    ServerRun app₀ (Gated.opened maxConcurrentRequests World.empty) es (crowd n) := by
  induction n with
  | zero => exact ⟨[], .nil _⟩
  | succ n ih =>
    obtain ⟨es, hrun⟩ := ih (by omega)
    have harrives : Served app₀ (crowd n)
        (.arrive .getStorageStats (Call.getStorageStats.task app₀)) := rfl
    refine ⟨_, hrun.snoc harrives ?_⟩
    obtain ⟨m, hm⟩ : ∃ m, maxConcurrentRequests - n = m + 1 := ⟨_, (Nat.succ_pred (by omega)).symm⟩
    have hleft : maxConcurrentRequests - (n + 1) = m := by omega
    simp only [GateEvent.Transition, crowd, accept, Call.limited, hm, hleft, if_true,
      List.replicate_succ']

/-- The hundred and first request is turned away; an upload is not. -/
theorem crowd_limited : inProgress (crowd 100) = 100 ∧
    TurnedAway app₀ (crowd 100) .listBuckets ∧ ¬ TurnedAway app₀ (crowd 100) uploadCall := by
  obtain ⟨es, hrun⟩ := crowd_gathers (n := 100) (Nat.le_refl _)
  obtain ⟨htotal, hturned, -⟩ := requests_limited hrun
  have hfull : inProgress (crowd 100) = 100 := by
    simpa [crowd, maxConcurrentRequests] using htotal
  refine ⟨hfull, (hturned _).mpr ⟨rfl, hfull⟩, fun h => ?_⟩
  simpa [uploadCall, Call.limited] using ((hturned _).mp h).1

end LocalStorage.Proofs.RequestLimit
