import CortexForge.Core.Signal
import Mathlib.Data.List.Nodup

/-!
# Alarms

An alarm is a counter of timer ticks. Between two calls of `alarm` by a task only the
ticks change its counter, whatever the other tasks do with theirs, so the signal comes
with the tick that the counter was set to.

The counter is set to a hundred ticks a second, computed in 64 bits. A number of seconds
for which this wraps gives an alarm that is early, and one just below it a remainder
that is rounded up past the end of the word.

## Main definitions

* `AlarmEvent`: What happens to alarms.
* `CountsDown`: An alarm after some ticks.
* `AlarmExact`: The alarm comes when asked, and its remainder is right.

## Theorems

* `countsDown_tick`, `countsDown_run`: The counter after a tick, and after a run.
* `alarm_exact_iff`: The seconds for which alarms are exact.
-/

namespace CortexForge.Signal

open List

/-- A call of `alarm` by a task, or a timer tick with the run queue of that time. -/
inductive AlarmEvent where
  | alarm (task : Nat) (seconds : BitVec 64)
  | tick (queue : List Nat)
deriving DecidableEq

def setAlarm (tasks : Nat → SigTask) (t : Nat) (seconds : BitVec 64) : Nat → SigTask :=
  fun u => if u = t then (signalAlarm (tasks t) seconds).1 else tasks u

def alarmStep (tasks : Nat → SigTask) : AlarmEvent → Nat → SigTask
  | .alarm t seconds => setAlarm tasks t seconds
  | .tick queue => signalTickAlarms tasks queue

def alarmRun (tasks : Nat → SigTask) (events : List AlarmEvent) : Nat → SigTask :=
  events.foldl alarmStep tasks

/-- The timer ticks of a run. -/
def tickCount (events : List AlarmEvent) : Nat :=
  events.countP fun
    | .tick _ => true
    | .alarm _ _ => false

/-- An event while the task `t` waits for its alarm: a call by another task, or a tick
    with `t` on the run queue. -/
def Awaits (t : Nat) : AlarmEvent → Prop
  | .alarm u _ => u ≠ t
  | .tick queue => queue.Nodup ∧ t ∈ queue

section

variable {tasks : Nat → SigTask} {queue : List Nat} {t n k : Nat} {pending : Bool}

theorem tickAlarms_other (h : t ∉ queue) : signalTickAlarms tasks queue t = tasks t := by
  induction queue generalizing tasks with
  | nil => rfl
  | cons u queue ih =>
    rw [mem_cons, not_or] at h
    exact (ih h.2).trans (if_neg h.1)

/-- The loop comes to a task of the run queue once. -/
theorem tickAlarms_mem (hnodup : queue.Nodup) (h : t ∈ queue) :
    signalTickAlarms tasks queue t = tickAlarm (tasks t) := by
  induction queue generalizing tasks with
  | nil => cases h
  | cons u queue ih =>
    rw [nodup_cons] at hnodup
    rcases mem_cons.mp h with rfl | h
    · exact (tickAlarms_other hnodup.1).trans (if_pos rfl)
    · have hne : t ≠ u := fun hc => hnodup.1 (hc ▸ h)
      exact (ih hnodup.2 h).trans (congrArg tickAlarm (if_neg hne))

/-- An alarm set to `n` ticks, `k` ticks later. -/
structure CountsDown (n : Nat) (pending : Bool) (k : Nat) (t : SigTask) : Prop where
  left : t.sigAlarmTicks.toNat = n - k
  pending : t.sigPending.getLsbD sigAlrm = (pending || decide (0 < n ∧ n ≤ k))

theorem countsDown_tick {t : SigTask} (h : CountsDown n pending k t) :
    CountsDown n pending (k + 1) (tickAlarm t) := by
  have hleft := h.left
  have hpending := h.pending
  unfold tickAlarm
  by_cases hzero : t.sigAlarmTicks > 0
  · have hpos : 0 < t.sigAlarmTicks.toNat := hzero
    have hsub : (t.sigAlarmTicks - 1).toNat = n - (k + 1) := by
      rw [BitVec.toNat_sub, show BitVec.toNat (1 : BitVec 64) = 1 from rfl]
      omega
    rw [if_pos hzero]
    by_cases hlast : t.sigAlarmTicks - 1 = 0
    · -- The last tick sets the bit of the signal.
      have hend : n - (k + 1) = 0 := hsub.symm.trans (congrArg BitVec.toNat hlast)
      rw [if_pos hlast]
      refine ⟨hsub, ?_⟩
      rw [decide_eq_true (by omega), Bool.or_true, BitVec.getLsbD_or]
      exact Bool.or_true _
    · have hmore : n - (k + 1) ≠ 0 := fun hc => hlast (BitVec.eq_of_toNat_eq (hsub.trans hc))
      rw [if_neg hlast]
      refine ⟨hsub, hpending.trans ?_⟩
      rw [decide_eq_false (by omega), decide_eq_false (by omega)]
  · have hnone : t.sigAlarmTicks.toNat = 0 := Nat.eq_zero_of_not_pos hzero
    rw [if_neg hzero]
    refine ⟨by omega, hpending.trans ?_⟩
    congr 2
    exact propext (by omega)

/-- Whatever the other tasks do, the counter of a task goes down with the ticks. -/
theorem countsDown_run (events : List AlarmEvent) (hevents : ∀ e ∈ events, Awaits t e)
    (h : CountsDown n pending k (tasks t)) :
    CountsDown n pending (k + tickCount events) (alarmRun tasks events t) := by
  induction events generalizing tasks k with
  | nil => exact h
  | cons e events ih =>
    have hfirst := hevents e mem_cons_self
    have hrest := fun e' he' => hevents e' (mem_cons_of_mem e he')
    cases e with
    | alarm u seconds =>
      refine ih hrest ?_
      rw [alarmStep, setAlarm, if_neg (Ne.symm hfirst)]
      exact h
    | tick queue =>
      have hnext := @ih (signalTickAlarms tasks queue) (k + 1) hrest
        (tickAlarms_mem hfirst.1 hfirst.2 ▸ countsDown_tick h)
      rw [tickCount, countP_cons_of_pos rfl, Nat.add_comm _ 1, ← Nat.add_assoc]
      exact hnext

end

/-- After `alarm` the signal is pending from the tick on that was asked for, and not
    before, however the events come; none is asked for with 0 seconds. Another call
    returns the seconds that are left, rounded up. -/
def AlarmExact (seconds : BitVec 64) : Prop :=
  ∀ tasks t events, (∀ e ∈ events, Awaits t e) →
    (alarmRun (setAlarm tasks t seconds) events t).sigPending.getLsbD sigAlrm
      = ((tasks t).sigPending.getLsbD sigAlrm ||
        decide (0 < seconds.toNat ∧ 100 * seconds.toNat ≤ tickCount events)) ∧
    ∀ again, (signalAlarm (alarmRun (setAlarm tasks t seconds) events t) again).2.toNat
      = (100 * seconds.toNat - tickCount events + 99) / 100

theorem signalAlarm_left (t : SigTask) (again : BitVec 64) :
    (signalAlarm t again).2.toNat = (t.sigAlarmTicks.toNat + 99) % 2 ^ 64 / 100 := by
  simp only [signalAlarm, ticksPerSec, BitVec.toNat_udiv, BitVec.toNat_sub, BitVec.toNat_add,
    BitVec.reduceToNat]
  omega

/-- Alarms are exact if and only if neither the ticks nor their rounding wraps. -/
theorem alarm_exact_iff (seconds : BitVec 64) :
    AlarmExact seconds ↔ 100 * seconds.toNat + 99 < 2 ^ 64 := by
  have hset : ∀ tasks t, (setAlarm tasks t seconds t).sigAlarmTicks.toNat
      = 100 * seconds.toNat % 2 ^ 64 := fun tasks t => by
    rw [setAlarm, if_pos rfl, signalAlarm, Nat.mul_comm]
    rfl
  constructor
  · intro h
    -- A second call right away already gives a wrong remainder.
    have hleft := (h (fun _ => ⟨fun _ => 0, 0, 0, 0, 0⟩) 0 [] nofun).2 0
    rw [signalAlarm_left, alarmRun, foldl_nil, hset, tickCount, countP_nil] at hleft
    omega
  · intro hlt tasks t events hevents
    have hstart : CountsDown (100 * seconds.toNat) ((tasks t).sigPending.getLsbD sigAlrm) 0
        (setAlarm tasks t seconds t) := by
      refine ⟨(hset tasks t).trans (Nat.mod_eq_of_lt (by omega)), ?_⟩
      rw [setAlarm, if_pos rfl, decide_eq_false (by omega), Bool.or_false]
      rfl
    have hrun := countsDown_run events hevents hstart
    rw [Nat.zero_add] at hrun
    refine ⟨hrun.pending.trans ?_, fun again => ?_⟩
    · congr 2
      exact propext (by omega)
    · rw [signalAlarm_left, hrun.left, Nat.mod_eq_of_lt (by omega)]

/-- An alarm in 184467440737095517 seconds comes with the 84th tick. -/
theorem alarm_wraps :
    (alarmRun (setAlarm (fun _ => ⟨fun _ => 0, 0, 0, 0, 0⟩) 1 184467440737095517)
      (replicate 84 (.tick [1])) 1).sigPending.getLsbD sigAlrm = true := by
  decide +kernel

end CortexForge.Signal
