import Blackcomb.Laws.Kernel.Wakeup

/-!
# Keyboard input

What was typed and what reads returned, written down beside a run of the system. A key goes to the end of
the buffer and a read that completes takes from its front, but it empties the whole buffer: what did not
fit in the reader's buffer is lost. So the characters returned and those still in the buffer are the ones
typed, in order, just as long as every read takes all there is.

**What it does not establish.** The keys are those handed to the terminal; how scan codes become
keys is in `Interrupt`. What happens when the buffer is full is in `TtyBuffer`.
-/

namespace Blackcomb.Kernel

open Run State

variable {s s' : State} {event : Event}

/-- What was typed and what reads returned, in order. -/
structure Io where
  sent : List (BitVec 8)
  returned : List (BitVec 8)

/-- What a step adds to that. -/
def Io.record (io : Io) (s : State) : Event → Io
  | .key pressed => { io with sent := io.sent ++ [keyMap pressed] }
  | .readResume n => { io with returned := io.returned ++ (stdinReadResume s n).1 }
  | _ => io

/-- A step of the system, written down. -/
def ioStep (event : Event) (x : State × Io) : Except Fault (State × Io) := do
  let s ← Kernel.step event x.1
  pure (s, x.2.record x.1 event)

/-- `global_tty->buf[0, bufi)`. -/
def unread (s : State) : List (BitVec 8) := (List.range s.tty.bufi).map s.tty.buf

/-- Nothing typed is lost or out of order. -/
def Lossless (x : State × Io) : Prop := x.2.returned ++ unread x.1 = x.2.sent

/-- A read that completes has room for all that is in the buffer. -/
def TakesAll (event : Event) (x : State × Io) : Prop :=
  ∀ n, event = .readResume n → x.1.tty.bufi ≤ n

/-! ## What a step does to the buffer -/

/-- A key that is taken is written behind the last one. -/
theorem ttySendKey_buf {pressed : Ps2Key} (h : ttySendKey s pressed = .ok s') :
    s'.tty.bufi = s.tty.bufi + 1 ∧
      s'.tty.buf = Function.update s.tty.buf s.tty.bufi (keyMap pressed) := by
  unfold ttySendKey at h
  split at h
  · cases h
  simp only at h
  split at h
  · split at h
    · obtain ⟨s₁, inserted, h⟩ := bind_eq_ok.mp h
      cases h
      have only := schedRrInsertProc_schedOnly inserted
      exact ⟨congrArg Tty.bufi only.tty, congrArg Tty.buf only.tty⟩
    · cases h
      exact ⟨rfl, rfl⟩
  · cases h
    exact ⟨rfl, rfl⟩

/-- A key goes to the end of the buffer. -/
theorem ttySendKey_unread {pressed : Ps2Key} (h : ttySendKey s pressed = .ok s') :
    unread s' = unread s ++ [keyMap pressed] := by
  obtain ⟨length, bytes⟩ := ttySendKey_buf h
  rw [unread, length, bytes, List.range_succ, List.map_append, List.map_singleton,
    Function.update_self, unread]
  congr 1
  apply List.map_congr_left
  intro i mem
  exact Function.update_of_ne (Nat.ne_of_lt (List.mem_range.mp mem)) _ _

/-- A read takes from the front of the buffer, and the rest is gone. -/
theorem stdinReadResume_unread (s : State) (n : Nat) :
    (stdinReadResume s n).1 = (unread s).take n ∧ unread (stdinReadResume s n).2 = [] := by
  constructor
  · unfold stdinReadResume unread
    dsimp only
    rw [← List.map_take, List.take_range]
    congr 2
    split <;> omega
  · rfl

/-- A key, a read that completes, or another call. -/
theorem Event.tty_cases (event : Event) : (∃ pressed, event = .key pressed) ∨
    (∃ n, event = .readResume n) ∨
    (∀ pressed, event ≠ .key pressed) ∧ ∀ n, event ≠ .readResume n := by
  cases event with
  | key pressed => exact .inl ⟨pressed, rfl⟩
  | readResume n => exact .inr (.inl ⟨n, rfl⟩)
  | _ => exact .inr (.inr ⟨fun _ absurd => (by cases absurd), fun _ absurd => (by cases absurd)⟩)

/-- No other call touches the buffer or its index. -/
theorem step_tty (h : Kernel.step event s = .ok s') (noKey : ∀ pressed, event ≠ .key pressed)
    (noRead : ∀ n, event ≠ .readResume n) :
    s'.tty = s.tty ∨ ∃ w, s'.tty = { s.tty with waitingTask := w } := by
  cases event with
  | fork stack => exact .inl (schedFork_spec h).tty
  | exec =>
    cases h
    exact .inl rfl
  | exit status =>
    obtain ⟨_, _, _, ⟨_, _, inserted, slept⟩ | ⟨_, slept⟩⟩ := doExit_inv h
    · left
      rw [(scheduleSleep_schedOnly slept).tty, modifyTask_tty, (schedRrInsertProc_schedOnly inserted).tty]
      rfl
    · left
      rw [(scheduleSleep_schedOnly slept).tty]
      rfl
  | wait =>
    rcases doWait_inv h with ⟨_, slept⟩ | ⟨_, _, rfl⟩
    · left
      rw [(scheduleSleep_schedOnly slept).tty, modifyTask_tty]
    · rw [taskFree_frame]
      exact .inl rfl
  | read =>
    obtain ⟨_, slept⟩ := stdinRead_inv h
    exact .inr ⟨_, (scheduleSleep_schedOnly slept).tty⟩
  | readResume n => exact absurd rfl (noRead n)
  | key pressed => exact absurd rfl (noKey pressed)
  | tick => exact .inl (schedMaybePreempt_schedOnly h).tty
  | schedule => exact .inl (schedule_schedOnly h).tty
  | open_ ino mode =>
    obtain ⟨_, _, _, rfl⟩ := doOpen_inv h
    exact .inl rfl
  | close fd =>
    obtain ⟨_, _, _, _, rfl⟩ := doClose_inv h
    exact .inl rfl

theorem step_unread (h : Kernel.step event s = .ok s') (noKey : ∀ pressed, event ≠ .key pressed)
    (noRead : ∀ n, event ≠ .readResume n) : unread s' = unread s := by
  rcases step_tty h noKey noRead with same | ⟨w, same⟩ <;> rw [unread, same, unread]

/-! ## A step -/

/-- A step that is written down. -/
theorem ioStep_inv {x x' : State × Io} (h : ioStep event x = .ok x') :
    Kernel.step event x.1 = .ok x'.1 ∧ x'.2 = x.2.record x.1 event := by
  obtain ⟨s', stepped, done⟩ := bind_eq_ok.mp h
  cases done
  exact ⟨stepped, rfl⟩

/-- Nothing is lost in a step that takes all. -/
theorem Lossless.step {x x' : State × Io} (before : Lossless x) (all : TakesAll event x)
    (h : ioStep event x = .ok x') : Lossless x' := by
  obtain ⟨stepped, recorded⟩ := ioStep_inv h
  unfold Lossless at before ⊢
  rcases event.tty_cases with ⟨pressed, rfl⟩ | ⟨n, rfl⟩ | ⟨noKey, noRead⟩
  · rw [recorded, Io.record, ttySendKey_unread stepped, ← List.append_assoc, before]
  · obtain ⟨taken, rest⟩ := stdinReadResume_unread x.1 n
    have after : x'.1 = (stdinReadResume x.1 n).2 := (Except.ok.inj stepped).symm
    have fits := all n rfl
    rw [recorded, Io.record, after, rest, taken, List.append_nil, List.take_of_length_le, before]
    simpa [unread] using fits
  · rw [recorded, step_unread stepped noKey noRead]
    cases event with
    | key pressed => exact absurd rfl (noKey pressed)
    | readResume n => exact absurd rfl (noRead n)
    | _ => exact before

/-- In a read that does not, something is. -/
theorem Lossless.breach {x x' : State × Io} (before : Lossless x) (h : ioStep event x = .ok x')
    (short : ¬ TakesAll event x) : ¬ Lossless x' := by
  obtain ⟨stepped, recorded⟩ := ioStep_inv h
  intro after
  apply short
  rintro n rfl
  obtain ⟨taken, rest⟩ := stdinReadResume_unread x.1 n
  have emptied : x'.1 = (stdinReadResume x.1 n).2 := (Except.ok.inj stepped).symm
  unfold Lossless at before after
  rw [recorded, Io.record, emptied, rest, taken, List.append_nil] at after
  have lengths := congrArg List.length (after.trans before.symm)
  simp only [List.length_append, List.length_take, unread, List.length_map, List.length_range] at lengths
  omega

/-! ## A run -/

/-- **Keyboard input.** Along any calls from the start, the characters that reads returned and those in
the buffer are in every state the ones typed, in order, exactly when every read that completes has room
for all that is in the buffer then. -/
theorem stdin_lossless_iff (stack : Nat) (events : List Event) :
    Along ioStep Lossless (startInit stack, ⟨[], []⟩) events ↔
      Guarded ioStep TakesAll (startInit stack, ⟨[], []⟩) events :=
  guarded_iff_along (fun _ _ _ before all taken => before.step all taken) (fun _ held => held)
    (fun _ _ _ before taken short => before.breach taken short) rfl

/-- Init reads one byte, and two keys are pressed before it runs again: the second is lost. -/
theorem stdin_short_read : ∃ s s' io', follow Kernel.step (startInit 0)
      [.fork 0, .read, .key .a, .key .enter, .schedule] = .ok s ∧ s.current = 0 ∧
    follow ioStep (startInit 0, ⟨[], []⟩)
      [.fork 0, .read, .key .a, .key .enter, .schedule, .readResume 1] = .ok (s', io') ∧
    io'.sent = [97, 10] ∧ io'.returned = [97] ∧ unread s' = [] ∧
    ¬ Along ioStep Lossless (startInit 0, ⟨[], []⟩)
      [.fork 0, .read, .key .a, .key .enter, .schedule, .readResume 1] := by
  obtain ⟨s, run, current⟩ := follow_of_observed Kernel.step (startInit 0)
    [.fork 0, .read, .key .a, .key .enter, .schedule] State.current 0 (by decide +kernel)
  obtain ⟨⟨s', io'⟩, run', observed⟩ := follow_of_observed ioStep (startInit 0, ⟨[], []⟩)
    [.fork 0, .read, .key .a, .key .enter, .schedule, .readResume 1]
    (fun x => (x.2.sent, x.2.returned, unread x.1)) ([97, 10], [97], []) (by decide +kernel)
  simp only [Prod.mk.injEq] at observed
  obtain ⟨sent, returned, left⟩ := observed
  refine ⟨s, s', io', run, current, run', sent, returned, left, ?_⟩
  intro along
  have after : Lossless (s', io') := along.follow run'
  unfold Lossless at after
  rw [sent, returned, left] at after
  cases after

end Blackcomb.Kernel
