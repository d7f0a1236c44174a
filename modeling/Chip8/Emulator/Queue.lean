import Chip8.Emulator.Command

/-! # Command queue

The commands that wait to be obeyed, in the order of their submission, between the callers and the
emulator.

* **Callers** submit commands. After a `terminate` nothing more is accepted.
* **The emulator** looks for the next command. While it waits for an event it looks only for
  commands and pulses; else it goes on executing if there is none.
* **Pulses** come at a fixed period, measured in nanoseconds on the emulator's clock. One that is
  due is handed out behind the commands that are pending; pulses missed meanwhile are dropped. While
  nothing is executed no pulse is handed out, and the period starts anew afterwards. -/

namespace Chip8

/-- The commands between callers and an emulator. -/
structure Queue where
  pending : List Command
  /-- Whether a `terminate` was submitted. -/
  terminated : Bool
  /-- Whether there is a caller who can submit. -/
  connected : Bool
  /-- Whether there is an emulator that obeys. -/
  attended : Bool
  /-- What the emulator is waiting for. -/
  wait : WaitFlags
  /-- The time from one pulse to the next, if there are pulses. -/
  period : Option Nat
  /-- When the next pulse is due. -/
  nextPulse : Nat

/-- What the emulator does next. -/
inductive Polled where
  | command (c : Command)
  /-- Go on executing. -/
  | resume
  /-- All callers are gone. -/
  | disconnected
  /-- Nothing can be done until a command is submitted. -/
  | blocked

namespace Queue

/-- An empty queue whose first pulse is due at once. -/
def empty (period : Option Nat) : Queue := ⟨[], false, true, true, .none, period, 0⟩

/-- Submit a command. -/
def submit (q : Queue) (c : Command) : Queue × Except Refusal Unit :=
  if q.terminated then (q, .error .terminated)
  else
    let q := { q with terminated := c.isTerminate }
    if q.attended then ({ q with pending := q.pending ++ [c] }, .ok ())
    else (q, .error .disconnected)

/-- The callers are gone. -/
def disconnect (q : Queue) : Queue := { q with connected := false }

/-- The emulator is gone, and what it has not obeyed is lost. -/
def abandon (q : Queue) : Queue := { q with attended := false, pending := [] }

def setWait (q : Queue) (w : WaitFlags) : Queue := { q with wait := w }

/-- Take the next command without waiting for one. -/
def tryTake (q : Queue) : Option Command × Queue :=
  match q.pending with
  | c :: cs => (some c, { q with pending := cs })
  | [] => (none, q)

/-- Start the period anew. -/
def restartPulses (q : Queue) (now : Nat) : Queue :=
  match q.period with
  | some period => { q with nextPulse := now + period }
  | none => q

/-- Take the next command and wait for it if there is none. -/
def take (q : Queue) (now : Nat) : Polled × Queue :=
  match q.pending with
  | c :: cs => (.command c, { q with pending := cs }.restartPulses now)
  | [] => (if q.connected then .blocked else .disconnected, q.restartPulses now)

/-- What to do next, and when: waiting for a pulse takes time. -/
def poll (q : Queue) (now : Nat) : Polled × Queue × Nat :=
  match q.pending with
  | c :: cs => (.command c, { q with pending := cs }, now)
  | [] =>
      if q.connected then
        match q.period with
        | none => (if q.wait.isEmpty then .resume else .blocked, q, now)
        | some period =>
            let next := q.nextPulse + period
            if q.nextPulse ≤ now then
              (.command .pulse, { q with nextPulse := if next < now then now + period else next },
                now)
            else if q.wait.isEmpty then (.resume, q, now)
            else (.command .pulse, { q with nextPulse := next }, q.nextPulse)
      else (.disconnected, q, now)

/-- Commands are obeyed in the order of their submission. -/
theorem pending_submit {q : Queue} {c : Command} (h : (q.submit c).2 = .ok ()) :
    (q.submit c).1.pending = q.pending ++ [c] := by
  unfold submit at h ⊢
  split at h
  · cases h
  · rename_i hterm
    rw [if_neg hterm]
    dsimp only at h ⊢
    split at h
    · rename_i hatt
      rw [if_pos hatt]
    · cases h

/-- After a `terminate` nothing is accepted. -/
theorem submit_terminated {q : Queue} (h : q.terminated = true) (c : Command) :
    q.submit c = (q, .error .terminated) := by
  simp [submit, h]

end Queue

end Chip8
