import Blackcomb.Laws.Kernel.Stdin

/-!
# The buffer of the terminal

`tty_send_key` advances the index of `global_tty->buf` in an interrupt, and only a read that completes sets
it back. The index is compared with the size of the buffer by `>`, so one key more than the buffer has bytes
is taken before the panic. The byte it is written to is the one behind the buffer, which the next read may
copy too.

**What it does not establish.** What lies behind the buffer, and what the extra byte changes there,
depends on the heap and is left open.
-/

namespace Blackcomb.Kernel

open Run State

variable {s s' : State} {event : Event}

/-- The indices of `global_tty->buf` that a call writes or copies. A key that panics writes none. -/
def bufAccesses : Event → State → List Nat
  | .key _, s => if s.tty.bufi > ttyBufSize then [] else [s.tty.bufi]
  | .readResume n, s => List.range (if s.tty.bufi > n then n else s.tty.bufi)
  | _, _ => []

/-- A call stays in the buffer. -/
def BufKept (event : Event) (s : State) : Prop := ∀ i ∈ bufAccesses event s, i < ttyBufSize

/-- A key is pressed when the buffer is not full to the last byte. -/
def RoomForKey (event : Event) (s : State) : Prop :=
  ∀ pressed, event = .key pressed → s.tty.bufi ≠ ttyBufSize

/-! ## What the calls access -/

/-- A byte that a call does not access is what it was. -/
theorem step_buf_frame {i : Nat} (h : Kernel.step event s = .ok s') (out : i ∉ bufAccesses event s) :
    s'.tty.buf i = s.tty.buf i := by
  rcases event.tty_cases with ⟨pressed, rfl⟩ | ⟨n, rfl⟩ | ⟨noKey, noRead⟩
  · have taken : ¬ s.tty.bufi > ttyBufSize := by
      intro full
      have panics : ttySendKey s pressed = .error (.panic "tty buf exceeded") := if_pos full
      rw [Kernel.step, panics] at h
      cases h
    rw [bufAccesses, if_neg taken, List.mem_singleton] at out
    rw [(ttySendKey_buf h).2, Function.update_of_ne out]
  · cases h
    rfl
  · rcases step_tty h noKey noRead with same | ⟨w, same⟩ <;> rw [same]

/-- What a read returns is what it copies. -/
theorem stdinReadResume_copies (s : State) (n : Nat) :
    (stdinReadResume s n).1 = (bufAccesses (.readResume n) s).map s.tty.buf := rfl

/-! ## The index -/

/-- While the buffer is full to the last byte at most, a call leaves it so if there is room for its key. -/
theorem step_bufi (before : s.tty.bufi ≤ ttyBufSize) (room : RoomForKey event s)
    (h : Kernel.step event s = .ok s') : s'.tty.bufi ≤ ttyBufSize := by
  rcases event.tty_cases with ⟨pressed, rfl⟩ | ⟨n, rfl⟩ | ⟨noKey, noRead⟩
  · have below := room pressed rfl
    rw [(ttySendKey_buf h).1]
    omega
  · cases h
    exact Nat.zero_le _
  · rcases step_tty h noKey noRead with same | ⟨w, same⟩ <;> rwa [same]

/-- And there it stays in the buffer just when there is room for its key. -/
theorem bufKept_iff (before : s.tty.bufi ≤ ttyBufSize) : BufKept event s ↔ RoomForKey event s := by
  cases event with
  | key pressed =>
    have taken : ¬ s.tty.bufi > ttyBufSize := Nat.not_lt.mpr before
    rw [BufKept, bufAccesses, if_neg taken]
    constructor
    · intro kept _ _
      exact Nat.ne_of_lt (kept _ (List.mem_singleton_self _))
    · intro room i mem
      rw [List.mem_singleton.mp mem]
      exact Nat.lt_of_le_of_ne before (room pressed rfl)
  | readResume n =>
    refine iff_of_true (fun i mem => ?_) fun _ absurd => (by cases absurd)
    have copied := List.mem_range.mp mem
    split at copied <;> omega
  | _ => exact iff_of_true (fun _ absurd => (by cases absurd)) fun _ absurd => (by cases absurd)

/-! ## A run -/

/-- **The buffer of the terminal.** Along any calls from the start, however many keys and reads in any order,
every write to the buffer and every byte a read copies is in the buffer, if and only if no key is pressed
while as many keys are unread as the buffer has bytes. -/
theorem ttyBuffer_kept_iff (stack : Nat) (events : List Event) :
    Attempted Kernel.step BufKept (startInit stack) events ↔
      Attempted Kernel.step RoomForKey (startInit stack) events :=
  attempted_iff (fun _ _ _ before room taken => step_bufi before room taken)
    (fun _ _ before => bufKept_iff before) (Nat.zero_le _)

/-! ## One key too many -/

/-- A letter is taken until the buffer is more than full. -/
theorem ttySendKey_letter (taken : ¬ s.tty.bufi > ttyBufSize) : ∃ s', ttySendKey s .a = .ok s' := by
  rw [ttySendKey, if_neg taken]
  exact ⟨_, rfl⟩

/-- Letters, until then. -/
theorem follow_letters {n : Nat} (few : s.tty.bufi + n ≤ ttyBufSize + 1) :
    ∃ s', follow Kernel.step s (List.replicate n (.key .a)) = .ok s' ∧
      s'.tty.bufi = s.tty.bufi + n := by
  induction n generalizing s with
  | zero => exact ⟨s, rfl, rfl⟩
  | succ n ih =>
    obtain ⟨s₁, taken⟩ := ttySendKey_letter (s := s) (by omega)
    have index := (ttySendKey_buf taken).1
    obtain ⟨s', run, count⟩ := ih (s := s₁) (by omega)
    refine ⟨s', ?_, by omega⟩
    rw [List.replicate_succ, follow, Kernel.step, taken]
    exact run

/-- The key after `TTY_BUF_SIZE` unread ones goes behind the buffer, and a read with room for all copies it
from there. -/
theorem ttyBuffer_overrun : ∃ s s',
    follow Kernel.step (startInit 0) (List.replicate 1024 (.key .a)) = .ok s ∧
    Kernel.step (.key .a) s = .ok s' ∧ bufAccesses (.key .a) s = [1024] ∧ s'.tty.buf 1024 = 97 ∧
    1024 ∈ bufAccesses (.readResume 2000) s' ∧
    ¬ Attempted Kernel.step BufKept (startInit 0) (List.replicate 1024 (.key .a) ++ [.key .a]) := by
  obtain ⟨s, run, count⟩ := follow_letters (s := startInit 0) (n := 1024) (by decide)
  obtain ⟨s', taken⟩ := ttySendKey_letter (s := s) (by rw [count]; decide)
  have full : s.tty.bufi = 1024 := by
    rw [count]
    rfl
  obtain ⟨index, bytes⟩ := ttySendKey_buf taken
  have writes : bufAccesses (.key .a) s = [1024] := by
    rw [bufAccesses, full]
    rfl
  refine ⟨s, s', run, taken, writes, ?_, ?_, fun all => ?_⟩
  · rw [bytes, full, Function.update_self]
    rfl
  · rw [bufAccesses, index, full]
    exact List.mem_range.mpr (by decide)
  · have kept : BufKept (.key .a) s := all.follow run
    rw [BufKept, writes] at kept
    exact absurd (kept 1024 (List.mem_singleton_self _)) (by decide)

end Blackcomb.Kernel
