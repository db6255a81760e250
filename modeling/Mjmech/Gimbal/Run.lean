import Mjmech.Gimbal.Stabilizer

/-! Runs of the stabilizer: any interleaving of samples and watchdog polls, each at its own
clock reading. The outputs are off outside `kOperating` and the enable line is high only
with torque on, in every reachable state (`outputs_safe`). The state only moves forward,
`kInitializing` to `kOperating` by arming and `kOperating` to `kFault` by an error sample or
a stale poll (`state_sequence`). The watchdog fires exactly when the wrapped tick count
since the last sample, divided by the tick rate in `float` arithmetic, exceeds its period
(`watchdog_fires_iff`); the exact quotient can exceed the period while the rounded one does not
(`watchdog_spares_float_boundary`). Nothing turns torque on, so
the enable line never goes high from the state `Impl` is built in (`torque_stays_off`); a
channel no axis is routed to is never driven (`unrouted_channel_rests`); and telemetry gets one
snapshot per sample, never rewritten (`published_once_per_sample`). The `assert(false)` at
`kNumStates` is unreachable (`numStates_unreachable`), and a fault is final and freezes
`data_` (`fault_is_inert`). -/
namespace Mjmech.Gimbal

/-- An entry point call: a sample delivered while the clock reads `now`, or a watchdog
poll. -/
inductive Event
  | ahrs (d : AhrsData) (now : UInt32)
  | poll (now : UInt32)
  deriving DecidableEq, Repr

section Run

variable {PidConfig PidState : Type} (env : Env PidConfig PidState) (config : Config PidConfig)

/-- One entry point call. -/
def step (s : Impl PidState) : Event → Impl PidState
  | .ahrs d now => handleAhrs env config s d now
  | .poll now => pollMillisecond env config s now

/-- A run: the calls in order. -/
def run (s : Impl PidState) (events : List Event) : Impl PidState :=
  events.foldl (step env config) s

/-- `data_.state` before the run and after each of its calls. -/
def stateTrace (s : Impl PidState) (events : List Event) : List State :=
  (events.scanl (step env config) s).map (·.data.state)

/-- The call is a sample that takes `DoInitializing`'s arming branch. -/
def Arms (s : Impl PidState) : Event → Prop
  | .ahrs d now => s.data.state = .kInitializing ∧ d.error = false ∧ s.data.startTimestamp ≠ 0 ∧
      initElapsed env now s.data.startTimestamp > config.initializationPeriodS
  | .poll _ => False

/-- The call faults an operating stabilizer: a sample with its error flag set, or a poll
that finds the last sample stale. -/
def Faults (s : Impl PidState) : Event → Prop
  | .ahrs d _ => s.data.state = .kOperating ∧ d.error = true
  | .poll now => s.data.state = .kOperating ∧
      pollElapsed env now s.data.lastAhrsUpdate > config.watchdogPeriodS

end Run

/-- Outputs are off outside `kOperating`, and the enable line is high only while operating
with torque on. -/
def Safe {PidState : Type} (s : Impl PidState) : Prop :=
  (s.data.state ≠ .kOperating →
    s.motorEnable = false ∧ s.motor1 = (0, 0, 0) ∧ s.motor2 = (0, 0, 0)) ∧
  (s.motorEnable = true → s.data.state = .kOperating ∧ s.data.torqueOn = true)

/-- The phases last set on a channel: `motor1_` or `motor2_`. -/
def Impl.channel {PidState : Type} (s : Impl PidState) : Motor → Phases
  | .motor1 => s.motor1
  | .motor2 => s.motor2

/-- The call is a sample, which `HandleAhrs` takes. -/
def Event.isSample : Event → Bool
  | .ahrs _ _ => true
  | .poll _ => false

section Lemmas

variable {PidConfig PidState : Type} {env : Env PidConfig PidState} {config : Config PidConfig}
  {s : Impl PidState} {e : Event} {events : List Event}

@[simp] theorem run_nil : run env config s [] = s := rfl

@[simp] theorem run_cons : run env config s (e :: events) = run env config (step env config s e) events :=
  rfl

theorem run_append_singleton :
    run env config s (events ++ [e]) = step env config (run env config s events) e :=
  List.foldl_append ..

/-- A property every call keeps holds after every run. -/
theorem run_invariant (Inv : Impl PidState → Prop)
    (preserved : ∀ s e, Inv s → Inv (step env config s e)) (initial : Inv s) (events : List Event) :
    Inv (run env config s events) := by
  induction events generalizing s with
  | nil => exact initial
  | cons e events ih => exact ih (preserved s e initial)

theorem Arms.initializing (arms : Arms env config s e) : s.data.state = .kInitializing := by
  cases e with
  | ahrs d now => exact arms.1
  | poll now => exact arms.elim

theorem Faults.operating (faults : Faults env config s e) : s.data.state = .kOperating := by
  cases e <;> exact faults.1

theorem step_state_of_arms (arms : Arms env config s e) :
    (step env config s e).data.state = .kOperating := by
  cases e with
  | ahrs d now =>
    obtain ⟨initializing, good, started, due⟩ := arms
    simp [step, handleAhrs, dispatch, initializing, doInitializing_data, good, started, due]
  | poll now => exact arms.elim

theorem step_state_of_faults (faults : Faults env config s e) :
    (step env config s e).data.state = .kFault := by
  cases e with
  | ahrs d now =>
    obtain ⟨operating, error⟩ := faults
    simp [step, handleAhrs, dispatch, operating, doOperating_of_error error]
  | poll now =>
    obtain ⟨operating, stale⟩ := faults
    simp [step, pollMillisecond, operating, stale]

theorem step_state_eq (calm : ¬ Arms env config s e) (quiet : ¬ Faults env config s e) :
    (step env config s e).data.state = s.data.state := by
  cases e with
  | ahrs d now =>
    simp only [Arms, Faults, not_and] at calm quiet
    simp only [step, handleAhrs, dispatch, Impl.publish_data]
    split
    · rename_i initializing
      rw [doInitializing_data_of_not_arming (calm initializing)]
    · rename_i operating
      simp [doOperating_data (by simpa using quiet operating)]
    · simp [*]
    · rfl
  | poll now =>
    simp only [Faults, not_and] at quiet
    simp only [step, pollMillisecond]
    split
    · rename_i operating
      simp [quiet operating]
    all_goals rfl

variable (env config s e) in
/-- The three ways a call can leave the state: unchanged, armed, or faulted. -/
theorem step_state_cases : (step env config s e).data.state = s.data.state ∨
    (Arms env config s e ∧ s.data.state = .kInitializing ∧
      (step env config s e).data.state = .kOperating) ∨
    (Faults env config s e ∧ s.data.state = .kOperating ∧
      (step env config s e).data.state = .kFault) := by
  by_cases arms : Arms env config s e
  · exact .inr (.inl ⟨arms, arms.initializing, step_state_of_arms arms⟩)
  by_cases faults : Faults env config s e
  · exact .inr (.inr ⟨faults, faults.operating, step_state_of_faults faults⟩)
  exact .inl (step_state_eq arms faults)

theorem doFault_safe : Safe (doFault s) := by
  simp [Safe]

theorem step_safe (safe : Safe s) : Safe (step env config s e) := by
  cases e with
  | ahrs d now =>
    simp only [step, handleAhrs, dispatch]
    split
    · rename_i initializing
      obtain ⟨-, idle1, idle2⟩ := safe.1 (by simp [initializing])
      simp [Safe, idle1, idle2]
    · rename_i operating
      cases error : d.error
      · simp [Safe, doOperating_data error, doOperating_motorEnable error, operating]
      · rw [doOperating_of_error error]; exact doFault_safe
    · exact doFault_safe
    · exact safe
  | poll now =>
    simp only [step, pollMillisecond]
    split
    · split_ifs
      · exact doFault_safe
      · exact safe
    all_goals exact safe

theorem step_ne_numStates (valid : s.data.state ≠ .kNumStates) :
    (step env config s e).data.state ≠ .kNumStates := by
  rcases step_state_cases env config s e with
    same | ⟨-, -, armed⟩ | ⟨-, -, faulted⟩
  · rwa [same]
  · simp [armed]
  · simp [faulted]

variable (env config) in
theorem step_of_operating (operating : s.data.state = .kOperating) :
    (step env config s e).data.state = .kOperating ∨ (step env config s e).data.state = .kFault := by
  rcases step_state_cases env config s e with
    same | ⟨-, initializing, -⟩ | ⟨-, -, faulted⟩
  · exact .inl (same.trans operating)
  · simp [operating] at initializing
  · exact .inr faulted

variable (env config) in
theorem step_of_fault (fault : s.data.state = .kFault) : (step env config s e).data.state = .kFault := by
  rcases step_state_cases env config s e with
    same | ⟨-, initializing, -⟩ | ⟨-, operating, -⟩
  · exact same.trans fault
  · simp [fault] at initializing
  · simp [fault] at operating

@[simp] theorem stateTrace_nil : stateTrace env config s [] = [s.data.state] := rfl

@[simp] theorem stateTrace_cons : stateTrace env config s (e :: events) =
    s.data.state :: stateTrace env config (step env config s e) events := rfl

private theorem stateTrace_form (valid : s.data.state ≠ .kNumStates) :
    ∃ a b c, stateTrace env config s events =
        List.replicate a .kInitializing ++ List.replicate b .kOperating ++
          List.replicate c .kFault ∧
      (s.data.state ≠ .kInitializing → a = 0) ∧ (s.data.state = .kFault → b = 0) := by
  induction events generalizing s with
  | nil =>
    cases h : s.data.state with
    | kInitializing => exact ⟨1, 0, 0, by simp [h], by simp, by simp⟩
    | kOperating => exact ⟨0, 1, 0, by simp [h], by simp, by simp⟩
    | kFault => exact ⟨0, 0, 1, by simp [h], by simp, by simp⟩
    | kNumStates => exact absurd h valid
  | cons e events ih =>
    obtain ⟨a, b, c, trace, notInit, fault⟩ := ih (step_ne_numStates (e := e) valid)
    rw [stateTrace_cons, trace]
    cases h : s.data.state with
    | kInitializing => exact ⟨a + 1, b, c, by simp [List.replicate_succ], by simp, by simp⟩
    | kOperating =>
      have next : (step env config s e).data.state ≠ .kInitializing := by
        rcases step_of_operating env config (e := e) h with next | next <;> simp [next]
      exact ⟨0, b + 1, c, by simp [notInit next, List.replicate_succ], by simp, by simp⟩
    | kFault =>
      have next := step_of_fault env config (e := e) h
      exact ⟨0, 0, c + 1, by simp [notInit (by simp [next]), fault next, List.replicate_succ],
        by simp, by simp⟩
    | kNumStates => exact absurd h valid

/-- From `kInitializing`, the trace of states has the form
`kInitializing* kOperating* kFault*`. Every call of every run keeps the state, arms from
`kInitializing`, or faults from `kOperating`; an operating stabilizer faults exactly on an
error sample or a stale poll; `kFault` is never left; and `kNumStates`, the `assert(false)`
branch of both entry points, is never reached. -/
theorem state_sequence (initializing : s.data.state = .kInitializing) :
    (∀ events, ∃ a b c, stateTrace env config s events =
      List.replicate a .kInitializing ++ List.replicate b .kOperating ++
        List.replicate c .kFault) ∧
    ∀ pre e, (run env config s pre).data.state ≠ .kNumStates ∧
      ((step env config (run env config s pre) e).data.state = (run env config s pre).data.state ∨
        (Arms env config (run env config s pre) e ∧
          (step env config (run env config s pre) e).data.state = .kOperating) ∨
        (Faults env config (run env config s pre) e ∧
          (step env config (run env config s pre) e).data.state = .kFault)) ∧
      ((run env config s pre).data.state = .kOperating →
        ((step env config (run env config s pre) e).data.state = .kFault ↔
          Faults env config (run env config s pre) e)) ∧
      ((run env config s pre).data.state = .kFault →
        (step env config (run env config s pre) e).data.state = .kFault) := by
  have valid : s.data.state ≠ .kNumStates := by simp [initializing]
  refine ⟨fun events => (stateTrace_form valid).elim fun a h => ⟨a, h.elim fun b h =>
    ⟨b, h.elim fun c h => ⟨c, h.1⟩⟩⟩, fun pre e => ?_⟩
  have reached : (run env config s pre).data.state ≠ .kNumStates :=
    run_invariant (fun r => r.data.state ≠ .kNumStates) (fun _ _ => step_ne_numStates) valid pre
  refine ⟨reached, ?_, fun operating => ⟨fun faulted => ?_, step_state_of_faults⟩, step_of_fault env config⟩
  · rcases step_state_cases env config (run env config s pre) e with
      same | ⟨arms, -, armed⟩ | ⟨faults, -, faulted⟩
    · exact .inl same
    · exact .inr (.inl ⟨arms, armed⟩)
    · exact .inr (.inr ⟨faults, faulted⟩)
  · rcases step_state_cases env config (run env config s pre) e with
      same | ⟨-, initializing, -⟩ | ⟨faults, -, -⟩
    · simp [same, operating] at faulted
    · simp [operating] at initializing
    · exact faults

theorem state_sequence_on_bench : ∃ a b c, stateTrace benchEnv benchConfig (Impl.init () ())
    [.ahrs (benchSample false 0 1) 1, .poll 2, .ahrs (benchSample true 0 3) 3] =
      List.replicate a .kInitializing ++ List.replicate b .kOperating ++
        List.replicate c .kFault :=
  (state_sequence (s := Impl.init () ()) rfl).1 _

/-- Outputs are off in every state reachable from a stabilizer that starts in
`kInitializing` with the enable line low and both channels at rest, whatever samples and
polls arrive: outside `kOperating` the enable line was last set low and both channels were
last commanded `(0, 0, 0)`, and the line is high only while operating with torque on. -/
theorem outputs_safe (initializing : s.data.state = .kInitializing)
    (disabled : s.motorEnable = false) (idle1 : s.motor1 = (0, 0, 0))
    (idle2 : s.motor2 = (0, 0, 0)) (events : List Event) : Safe (run env config s events) :=
  run_invariant Safe (fun _ _ => step_safe) (by simp [Safe, initializing, disabled, idle1, idle2])
    events

theorem outputs_safe_on_bench : Safe (run benchEnv benchConfig (Impl.init () ())
    [.ahrs (benchSample false 0 1) 1, .poll 2, .ahrs (benchSample true 0 3) 3]) :=
  outputs_safe rfl rfl rfl rfl _

/-- The watchdog compares the wrapped tick count since the last sample, over the tick rate in
`float` arithmetic, with its period. A stale poll faults (torque off, enable low, both channels
at zero) and any other poll changes nothing. So for every true elapsed count below 2^32, whether
the clock wrapped or not, the watchdog fires exactly when that count's `float` quotient exceeds
the period. -/
theorem watchdog_fires_iff (operating : s.data.state = .kOperating) :
    (∀ now : UInt32,
      Binary.float32.round
          (Binary.float32.round ((((now.toNat : ℤ) - s.data.lastAhrsUpdate.toNat) % 2 ^ 32 : ℤ) : ℚ) /
            Binary.float32.round env.ticksPerSecond) > config.watchdogPeriodS →
        (pollMillisecond env config s now).data.state = .kFault ∧
        (pollMillisecond env config s now).data.torqueOn = false ∧
        (pollMillisecond env config s now).motorEnable = false ∧
        (pollMillisecond env config s now).motor1 = (0, 0, 0) ∧
        (pollMillisecond env config s now).motor2 = (0, 0, 0)) ∧
    (∀ now : UInt32,
      ¬ Binary.float32.round
          (Binary.float32.round ((((now.toNat : ℤ) - s.data.lastAhrsUpdate.toNat) % 2 ^ 32 : ℤ) : ℚ) /
            Binary.float32.round env.ticksPerSecond) > config.watchdogPeriodS →
        pollMillisecond env config s now = s) ∧
    ∀ ticks : ℕ, ticks < 2 ^ 32 →
      ((pollMillisecond env config s (s.data.lastAhrsUpdate + UInt32.ofNat ticks)).data.state =
          .kFault ↔
        Binary.float32.round (Binary.float32.round ticks / Binary.float32.round env.ticksPerSecond) >
          config.watchdogPeriodS) := by
  have poll : ∀ now, pollMillisecond env config s now =
      if pollElapsed env now s.data.lastAhrsUpdate > config.watchdogPeriodS then doFault s
      else s := by
    intro now; simp [pollMillisecond, operating]
  refine ⟨fun now stale => ?_, fun now fresh => ?_, fun ticks small => ?_⟩
  · rw [poll, pollElapsed_eq, if_pos stale]
    simp
  · rw [poll, pollElapsed_eq, if_neg fresh]
  · have elapsed : pollElapsed env (s.data.lastAhrsUpdate + UInt32.ofNat ticks)
        s.data.lastAhrsUpdate =
          Binary.float32.round (Binary.float32.round ticks / Binary.float32.round env.ticksPerSecond) := by
      rw [pollElapsed, add_ofNat_sub _ small]
    rw [poll, elapsed]
    split_ifs with stale
    · simp [stale]
    · simp [stale, operating]

/-- A whole number of ticks below 2^24 is a `float`. -/
theorem float32_round_natCast {n : ℕ} (small : n < 2 ^ 24) : Binary.float32.round n = n := by
  have cast : |(n : ℤ)| < 2 ^ Binary.float32.precision := by
    rw [Nat.abs_cast]
    exact_mod_cast small
  exact_mod_cast Binary.round_intCast cast (by decide)

/-- The spec's scenario: armed at tick 11000, no further sample, a poll at tick 12500. The
quotient 0.15 rounds to a `float` no smaller than 0.125, itself a `float`, above the default
period, the `float` nearest 0.1. -/
theorem watchdog_fires_on_bench :
    (pollMillisecond benchEnv benchConfig
      { Impl.init () () with data := { (Impl.init () ()).data with
          state := .kOperating, lastAhrsUpdate := 11000 } }
      (11000 + UInt32.ofNat 1500)).data.state = .kFault :=
  ((watchdog_fires_iff (s := { Impl.init () () with data := { (Impl.init () ()).data with
      state := .kOperating, lastAhrsUpdate := 11000 } }) rfl).2.2 1500 (by norm_num)).2 (by
    have eighth : Binary.float32.round (1 / 8) = 1 / 8 := by
      have grid := @Binary.round_of_grid Binary.float32 1 (-3) (by decide) (by decide)
      rwa [show ((1 : ℤ) : ℚ) * 2 ^ (-3 : ℤ) = 1 / 8 by norm_num] at grid
    have above := @Binary.round_mono Binary.float32 (1 / 8) (1500 / 10000) (by norm_num)
    rw [eighth] at above
    show Binary.float32.round (Binary.float32.round ((1500 : ℕ) : ℚ) /
      Binary.float32.round ((10000 : ℕ) : ℚ)) > 13421773 / 134217728
    rw [float32_round_natCast (by norm_num), float32_round_natCast (by norm_num)]
    push_cast
    linarith)

/-- The `float` nearest 0.12 is 16106127 · 2^-27, just below 0.12. -/
theorem float32_round_twelve_hundredths : Binary.float32.round (3 / 25) = 16106127 * 2 ^ (-27 : ℤ) :=
  Binary.round_eq_of_near (by norm_num [Binary.float32]) (by norm_num [Binary.float32])
    (by norm_num [Binary.float32]) (by norm_num [abs_lt])

/-- The claim's exact quotient does not decide the watchdog: with the period set to the `float`
0.12, a poll 1200 ticks at 10 kHz after the last sample finds 1200 / 10000 = 0.12 above the
period, yet the `float` quotient is that same `float` and the stabilizer keeps operating. -/
theorem watchdog_spares_float_boundary :
    (((((1200 : UInt32).toNat : ℤ) - (0 : UInt32).toNat) % 2 ^ 32 : ℤ) : ℚ) /
        benchEnv.ticksPerSecond > Binary.float32.round (3 / 25) ∧
      (pollMillisecond benchEnv { benchConfig with watchdogPeriodS := Binary.float32.round (3 / 25) }
        { Impl.init () () with data := { (Impl.init () ()).data with
            state := .kOperating, lastAhrsUpdate := 0 } } 1200).data.state = .kOperating := by
  refine ⟨?_, ?_⟩
  · rw [float32_round_twelve_hundredths, show (1200 : UInt32).toNat = 1200 from rfl]
    norm_num [benchEnv]
  · have elapsed : pollElapsed benchEnv 1200 0 = Binary.float32.round (3 / 25) := by
      show Binary.float32.round (Binary.float32.round ((1200 : ℕ) : ℚ) /
        Binary.float32.round ((10000 : ℕ) : ℚ)) = _
      rw [float32_round_natCast (by norm_num), float32_round_natCast (by norm_num)]
      norm_num
    simp [pollMillisecond, elapsed]

section Outputs

variable {d : AhrsData} {now : UInt32}

theorem doInitializing_torqueOn :
    (doInitializing env config s d now).data.torqueOn = s.data.torqueOn := by
  simp only [doInitializing, apply_ite fun t : Impl PidState => t.data.torqueOn, ite_self]

/-- No call turns torque on, and with torque off no call raises the enable line. -/
theorem step_torque_off (off : s.data.torqueOn = false) (disabled : s.motorEnable = false) :
    (step env config s e).data.torqueOn = false ∧ (step env config s e).motorEnable = false := by
  cases e with
  | ahrs d now =>
    simp only [step, handleAhrs, dispatch, Impl.publish_data, Impl.publish_motorEnable]
    split
    · exact ⟨doInitializing_torqueOn.trans off, doInitializing_motorEnable⟩
    · cases error : d.error
      · rw [doOperating_data error, doOperating_motorEnable error]
        exact ⟨off, off⟩
      · rw [doOperating_of_error error]
        exact ⟨rfl, rfl⟩
    · exact ⟨rfl, rfl⟩
    · exact ⟨off, disabled⟩
  | poll now =>
    simp only [step, pollMillisecond]
    split
    · split_ifs
      · exact ⟨rfl, rfl⟩
      · exact ⟨off, disabled⟩
    all_goals exact ⟨off, disabled⟩

/-- Nothing in the stabilizer turns torque on: `DoFault` clears `torque_on` and no other code
writes it. So from a state with torque off and the enable line low, as `Impl` is
constructed, every run keeps both so, whatever samples and polls arrive: `DoOperating`
drives the channels but the enable line it copies from `torque_on` stays low. -/
theorem torque_stays_off (off : s.data.torqueOn = false) (disabled : s.motorEnable = false)
    (events : List Event) :
    (run env config s events).data.torqueOn = false ∧ (run env config s events).motorEnable = false :=
  run_invariant (fun s => s.data.torqueOn = false ∧ s.motorEnable = false)
    (fun _ _ both => step_torque_off both.1 both.2) ⟨off, disabled⟩ events

/-- Armed by samples 2 s apart, then operating on a good sample: the enable line is low. -/
theorem torque_stays_off_on_bench :
    (run benchEnv benchConfig (Impl.init () ()) [.ahrs (benchSample false 0 1) 1,
      .ahrs (benchSample false 0 20001) 20001, .ahrs (benchSample false 0 20002) 20002]).motorEnable =
      false :=
  (torque_stays_off rfl rfl _).2

@[simp] theorem Impl.setMotor_channel (m other : Motor) (p : Phases) :
    (s.setMotor m p).channel other = if m = other then p else s.channel other := by
  cases m <;> cases other <;> rfl

theorem doFault_channel (m : Motor) : (doFault s).channel m = (0, 0, 0) := by
  cases m <;> rfl

theorem doInitializing_channel (m : Motor) :
    (doInitializing env config s d now).channel m = s.channel m := by
  cases m <;> simp only [Impl.channel, doInitializing_motor1, doInitializing_motor2]

/-- `DoOperating` sets only the channels the axes are routed to, or faults. -/
theorem doOperating_channel {m : Motor} (pitchElsewhere : pitchMotor config ≠ m)
    (yawElsewhere : yawMotor config ≠ m) :
    (doOperating env config s d).channel m = s.channel m ∨
      (doOperating env config s d).channel m = (0, 0, 0) := by
  unfold doOperating
  split_ifs
  · exact .inr (doFault_channel m)
  · left
    rw [Impl.setMotor_channel, if_neg yawElsewhere, Impl.setMotor_channel, if_neg pitchElsewhere]
    cases m <;> rfl

/-- A call leaves a channel no axis is routed to as it was, or sets it to rest. -/
theorem step_channel_unrouted {m : Motor} (pitchElsewhere : pitchMotor config ≠ m)
    (yawElsewhere : yawMotor config ≠ m) :
    (step env config s e).channel m = s.channel m ∨ (step env config s e).channel m = (0, 0, 0) := by
  have published : ∀ t : Impl PidState, t.publish.channel m = t.channel m := by
    intro t; cases m <;> rfl
  cases e with
  | ahrs d now =>
    simp only [step, handleAhrs, dispatch, published]
    split
    · exact .inl (doInitializing_channel m)
    · exact doOperating_channel pitchElsewhere yawElsewhere
    · exact .inr (doFault_channel m)
    · exact .inl rfl
  | poll now =>
    simp only [step, pollMillisecond]
    split
    · split_ifs
      · exact .inr (doFault_channel m)
      · exact .inl rfl
    all_goals exact .inl rfl

/-- `pitch_motor()` and `yaw_motor()` may name the same channel: both axes configured to
motor 1, or one to motor 2 and the other to 2 or out of range. Then `DoOperating` writes the
yaw command over the pitch command on that channel, and the other channel is never driven:
from rest it stays at rest over every run. -/
theorem unrouted_channel_rests {m : Motor} (pitchElsewhere : pitchMotor config ≠ m)
    (yawElsewhere : yawMotor config ≠ m) (resting : s.channel m = (0, 0, 0)) (events : List Event) :
    (run env config s events).channel m = (0, 0, 0) :=
  run_invariant (fun s => s.channel m = (0, 0, 0))
    (fun _ _ still => (step_channel_unrouted pitchElsewhere yawElsewhere).elim (·.trans still) id)
    resting events

/-- Both axes on motor 1: after arming and a good sample, motor 2 is still at rest. -/
theorem unrouted_channel_rests_on_bench :
    (run benchEnv { benchConfig with yaw := { benchConfig.yaw with motor := 1 } } (Impl.init () ())
      [.ahrs (benchSample false 0 1) 1, .ahrs (benchSample false 0 20001) 20001,
        .ahrs (benchSample false 45 20002) 20002]).channel .motor2 = (0, 0, 0) :=
  unrouted_channel_rests (by decide) (by decide) (by rfl) _

theorem Impl.setMotor_published (m : Motor) (p : Phases) :
    (s.setMotor m p).published = s.published := by
  cases m <;> rfl

theorem dispatch_published : (dispatch env config s d now).published = s.published := by
  unfold dispatch
  split
  · simp only [doInitializing, apply_ite Impl.published, ite_self]
  · unfold doOperating
    split_ifs
    · rfl
    · rw [Impl.setMotor_published, Impl.setMotor_published]
  · rfl
  · rfl

/-- A sample publishes `data_` as its handler leaves it; a poll publishes nothing. -/
theorem step_published : (step env config s e).published =
    s.published ++ if e.isSample then [(step env config s e).data] else [] := by
  cases e with
  | ahrs d now =>
    simp only [step, handleAhrs, Impl.publish, dispatch_published, Event.isSample, if_true]
  | poll now =>
    simp only [step, pollMillisecond, Event.isSample, Bool.false_eq_true, ite_false,
      List.append_nil]
    split
    · split_ifs <;> rfl
    all_goals rfl

/-- The states after each call of a run, the first call's state leading. -/
theorem scanl_tail_cons {α : Type} (f : α → Event → α) (a : α) (e : Event) (events : List Event) :
    ((e :: events).scanl f a).tail = f a e :: (events.scanl f (f a e)).tail := by
  cases events <;> rfl

/-- `data_updater_` runs once per sample and never on a poll, and never rewrites what it has
published: over every run, the snapshots are those published before, then, in the run's order,
`data_` as each sample's handler left it. -/
theorem published_once_per_sample (events : List Event) :
    (run env config s events).published = s.published ++
      ((events.zip (events.scanl (step env config) s).tail).filter (·.1.isSample)).map
        (·.2.data) := by
  induction events generalizing s with
  | nil => simp [run]
  | cons e events ih =>
    rw [run_cons, ih, step_published, scanl_tail_cons, List.zip_cons_cons, List.filter_cons]
    cases e.isSample <;> simp

/-- The `assert(false)` at `kNumStates` in `HandleAhrs` and `PollMillisecond` is
unreachable: from any other state, no run of samples and polls gets there. -/
theorem numStates_unreachable (valid : s.data.state ≠ .kNumStates) (events : List Event) :
    (run env config s events).data.state ≠ .kNumStates :=
  run_invariant (fun s => s.data.state ≠ .kNumStates) (fun _ _ => step_ne_numStates) valid events

theorem numStates_unreachable_on_bench :
    (run benchEnv benchConfig (Impl.init () ()) [.ahrs (benchSample false 0 1) 1, .poll 2,
      .ahrs (benchSample false 0 20001) 20001, .poll 30000]).data.state ≠ .kNumStates :=
  numStates_unreachable (by decide) _

/-- In `kFault` with torque off, as `DoFault` leaves it, a call changes nothing of `data_`. -/
theorem step_data_of_fault (fault : s.data.state = .kFault) (off : s.data.torqueOn = false) :
    (step env config s e).data = s.data := by
  have faulted : (doFault s).data = s.data := by
    rw [doFault_data, ← fault, ← off]
  cases e with
  | ahrs d now =>
    simp only [step, handleAhrs, dispatch, Impl.publish_data, fault]
    exact faulted
  | poll now =>
    simp only [step, pollMillisecond, fault]

/-- A faulted stabilizer is inert: nothing leaves `kFault`, and every later sample and poll
leaves `data_` (the setpoints, the PID states and the timestamps) exactly as the fault left
it, so every snapshot published after a fault repeats it. Only a reset recovers. -/
theorem fault_is_inert (fault : s.data.state = .kFault) (off : s.data.torqueOn = false)
    (events : List Event) : (run env config s events).data = s.data :=
  run_invariant (fun t => t.data = s.data)
    (fun _ _ same => (step_data_of_fault (same ▸ fault) (same ▸ off)).trans same) rfl events

/-- Faulted by an error sample after arming, then fed more samples and polls. -/
theorem fault_is_inert_on_bench :
    (run benchEnv benchConfig
      (run benchEnv benchConfig (Impl.init () ()) [.ahrs (benchSample false 0 1) 1,
        .ahrs (benchSample false 0 20001) 20001, .ahrs (benchSample true 0 20002) 20002])
      [.ahrs (benchSample false 30 20003) 20003, .poll 40000]).data =
    (run benchEnv benchConfig (Impl.init () ()) [.ahrs (benchSample false 0 1) 1,
        .ahrs (benchSample false 0 20001) 20001, .ahrs (benchSample true 0 20002) 20002]).data :=
  fault_is_inert (by decide) (by decide) _

end Outputs

end Lemmas

end Mjmech.Gimbal
