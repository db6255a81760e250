import Mjmech.Gimbal.Run
import Mathlib.Data.List.Basic

/-! Arming: the move from `kInitializing` to `kOperating`. It never comes early: the arming
sample is error-free, and an earlier error-free sample with no error sample since started a
timer whose exact elapsed time exceeds `initialization_period_s` (`arms_after_period`). It
fixes the setpoint once: every later state holds pitch 0 and the arming sample's yaw
(`setpoint_locked`). It can come late: `DoInitializing` truncates the elapsed seconds and
treats a start at clock reading 0 as "not started" (`arming_truncates_elapsed`,
`arming_forgets_start_at_zero`). -/
namespace Mjmech.Gimbal

/-- A sample with its error flag set. -/
def Event.IsError : Event → Prop
  | .ahrs d _ => d.error = true
  | .poll _ => False

section Timer

variable {PidConfig PidState : Type} (env : Env PidConfig PidState) (config : Config PidConfig)

/-- While initializing with the timer running, the run so far holds the error-free sample
that started the timer, at clock reading `startTimestamp`, and no error sample after it. -/
def TimerStarted (s : Impl PidState) (pre : List Event) : Prop :=
  s.data.state = .kInitializing → s.data.startTimestamp ≠ 0 →
    ∃ before d between, pre = before ++ .ahrs d s.data.startTimestamp :: between ∧
      d.error = false ∧ ∀ x ∈ between, ¬ x.IsError

end Timer

section Lemmas

variable {PidConfig PidState : Type} {env : Env PidConfig PidState} {config : Config PidConfig}
  {s : Impl PidState} {e : Event} {d : AhrsData} {now : UInt32}

theorem run_append (pre post : List Event) :
    run env config s (pre ++ post) = run env config (run env config s pre) post :=
  List.foldl_append ..

theorem step_data_of_arms (arms : Arms env config s (.ahrs d now)) :
    (step env config s (.ahrs d now)).data = { s.data with
      desiredDeg := { s.data.desiredDeg with pitch := 0, yaw := d.eulerDeg.yaw },
      lastAhrsUpdate := now, state := .kOperating } := by
  obtain ⟨initializing, good, started, due⟩ := arms
  simp [step, handleAhrs, dispatch, initializing, doInitializing_data, good, started, due]

/-- Only the arming branch writes `desired_deg`. -/
theorem step_desiredDeg (calm : ¬ Arms env config s e) :
    (step env config s e).data.desiredDeg = s.data.desiredDeg := by
  cases e with
  | ahrs d now =>
    simp only [Arms, not_and] at calm
    simp only [step, handleAhrs, dispatch, Impl.publish_data]
    split
    · rw [doInitializing_data_of_not_arming (calm ‹_›)]
    · cases error : d.error
      · simp [doOperating_data error]
      · simp [doOperating_of_error error]
    · simp
    · rfl
  | poll now =>
    simp only [step, pollMillisecond]
    split
    · split_ifs <;> simp
    all_goals rfl

/-- What a call does to the arming timer while initializing. -/
theorem step_startTimestamp (initializing : s.data.state = .kInitializing) :
    (step env config s e).data.startTimestamp = match e with
      | .ahrs d now =>
        if d.error then 0 else if s.data.startTimestamp = 0 then now else s.data.startTimestamp
      | .poll _ => s.data.startTimestamp := by
  cases e with
  | ahrs d now =>
    simp only [step, handleAhrs, dispatch, initializing, Impl.publish_data, doInitializing_data,
      apply_ite Data.startTimestamp, ite_self]
  | poll now => simp [step, pollMillisecond, initializing]

private theorem quiet_append {between : List Event} (quiet : ∀ x ∈ between, ¬ x.IsError)
    (calm : ¬ e.IsError) : ∀ x ∈ between ++ [e], ¬ x.IsError := by
  intro x mem
  rcases List.mem_append.mp mem with inner | last
  · exact quiet x inner
  · rw [List.mem_singleton.mp last]; exact calm

theorem step_initializing (after : (step env config s e).data.state = .kInitializing) :
    s.data.state = .kInitializing := by
  rcases step_state_cases env config s e with
    same | ⟨-, initializing, -⟩ | ⟨-, -, faulted⟩
  · rwa [same] at after
  · exact initializing
  · simp [faulted] at after

/-- A call that takes an initializing stabilizer to `kOperating` is a sample that takes the
arming branch. -/
theorem arming_call (was : s.data.state = .kInitializing)
    (armed : (step env config s e).data.state = .kOperating) :
    ∃ d now, e = .ahrs d now ∧ Arms env config s (.ahrs d now) := by
  rcases step_state_cases env config s e with
    same | ⟨arms, -, -⟩ | ⟨-, operating, -⟩
  · simp [same, was] at armed
  · cases e with
    | poll now => exact arms.elim
    | ahrs d now => exact ⟨d, now, rfl, arms⟩
  · simp [was] at operating

/-- Past `kInitializing`, no call writes `desired_deg` again. -/
theorem run_desiredDeg (left : s.data.state ≠ .kInitializing) (post : List Event) :
    (run env config s post).data.desiredDeg = s.data.desiredDeg := by
  induction post generalizing s with
  | nil => rfl
  | cons e post ih =>
    rw [run_cons, ih fun back => left (step_initializing back),
      step_desiredDeg fun arms => left arms.initializing]

/-- The timer invariant holds along every run that starts initializing with the timer
stopped. -/
theorem timer_started (stopped : s.data.startTimestamp = 0) (pre : List Event) :
    TimerStarted (run env config s pre) pre := by
  induction pre using List.reverseRecOn with
  | nil => intro _ running; exact absurd stopped running
  | append_singleton pre e ih =>
    intro after running
    rw [run_append_singleton] at after running ⊢
    have before := step_initializing after
    rw [step_startTimestamp before] at running ⊢
    cases e with
    | poll now =>
      obtain ⟨first, d, between, split, good, quiet⟩ := ih before running
      exact ⟨first, d, between ++ [.poll now], (congrArg (· ++ [_]) split).trans (by simp), good,
        quiet_append quiet id⟩
    | ahrs d now =>
      cases error : d.error
      · by_cases fresh : (run env config s pre).data.startTimestamp = 0
        · simp only [error, fresh, if_true, Bool.false_eq_true, if_false] at running ⊢
          exact ⟨pre, d, [], rfl, error, by simp⟩
        · simp only [error, fresh, if_false, Bool.false_eq_true] at running ⊢
          obtain ⟨first, d', between, split, good, quiet⟩ := ih before running
          exact ⟨first, d', between ++ [.ahrs d now], (congrArg (· ++ [_]) split).trans (by simp), good,
            quiet_append quiet (by simp [Event.IsError, error])⟩
      · simp [error] at running

/-- The truncated quotient never exceeds the exact one. -/
theorem initElapsed_le (now start : UInt32) :
    initElapsed env now start ≤
      ((((now.toNat : ℤ) - start.toNat) % 2 ^ 32 : ℤ) : ℚ) / env.ticksPerSecond := by
  rw [initElapsed, ← toNat_sub_eq_emod, Int.cast_natCast]
  exact Nat.cast_div_le

/-- The stabilizer never arms early. From a stopped timer, a call
that arms is an error-free sample at some clock reading `t`, and the run before it holds an
error-free sample at a clock reading `t0`, with no error sample since, such that the exact
wrapped time from `t0` to `t` exceeds `initialization_period_s`. -/
theorem arms_after_period (stopped : s.data.startTimestamp = 0) (pre : List Event) (e : Event)
    (was : (run env config s pre).data.state = .kInitializing)
    (armed : (run env config s (pre ++ [e])).data.state = .kOperating) :
    ∃ d t, e = .ahrs d t ∧ d.error = false ∧
      ∃ before d0 t0 between, pre = before ++ .ahrs d0 t0 :: between ∧ d0.error = false ∧
        (∀ x ∈ between, ¬ x.IsError) ∧
        ((((t.toNat : ℤ) - t0.toNat) % 2 ^ 32 : ℤ) : ℚ) / env.ticksPerSecond >
          config.initializationPeriodS := by
  rw [run_append_singleton] at armed
  obtain ⟨d, t, rfl, -, good, running, due⟩ := arming_call was armed
  obtain ⟨before, d0, between, split, good0, quiet⟩ := timer_started stopped pre was running
  exact ⟨d, t, rfl, good, before, d0, _, between, split, good0, quiet,
    lt_of_lt_of_le due (initElapsed_le _ _)⟩

theorem arms_after_period_on_bench : ∃ d t,
    Event.ahrs (benchSample false 45 20001) 20001 = .ahrs d t ∧ d.error = false ∧
      ∃ before d0 t0 between,
        [Event.ahrs (benchSample false 0 1) 1] = before ++ .ahrs d0 t0 :: between ∧
        d0.error = false ∧ (∀ x ∈ between, ¬ x.IsError) ∧
        ((((t.toNat : ℤ) - t0.toNat) % 2 ^ 32 : ℤ) : ℚ) / benchEnv.ticksPerSecond >
          benchConfig.initializationPeriodS :=
  arms_after_period (s := Impl.init () ()) rfl _ _ rfl
    (by simp [run, step, handleAhrs, dispatch, doInitializing_data, initElapsed, benchEnv,
      benchConfig, Config.default, benchSample, Impl.init, UInt32.size])

/-- The truncation slip. A good sample at tick 1 starts the timer, and a good sample 1.1 s
later leaves the stabilizer initializing: `DoInitializing` divides the `uint32_t` difference
by the integral tick rate before converting to `float`, which `PollMillisecond` does first,
so the elapsed time reads as 1 s, not above the 1 s period. -/
theorem arming_truncates_elapsed :
    ((((11001 : ℤ) - 1) % 2 ^ 32 : ℤ) : ℚ) / benchEnv.ticksPerSecond >
      benchConfig.initializationPeriodS ∧
    (run benchEnv benchConfig (Impl.init () ())
      [.ahrs (benchSample false 0 1) 1, .ahrs (benchSample false 45 11001) 11001]).data.state =
        .kInitializing := by
  constructor
  · norm_num [benchEnv, benchConfig, Config.default]
  · simp [run, step, handleAhrs, dispatch, doInitializing_data, initElapsed, benchEnv,
      benchConfig, Config.default, benchSample, Impl.init, UInt32.size]

/-- The sentinel slip. A good sample at clock reading 0 records 0, which reads as "not
started", so a good sample 2 s later only starts the timer. -/
theorem arming_forgets_start_at_zero :
    ((((20000 : ℤ) - 0) % 2 ^ 32 : ℤ) : ℚ) / benchEnv.ticksPerSecond >
      benchConfig.initializationPeriodS ∧
    (run benchEnv benchConfig (Impl.init () ())
      [.ahrs (benchSample false 0 0) 0, .ahrs (benchSample false 45 20000) 20000]).data.state =
        .kInitializing := by
  constructor
  · norm_num [benchEnv, benchConfig, Config.default]
  · decide

/-- Once armed, the setpoint is locked: every later state, whatever samples and polls
follow, holds pitch 0 and the yaw of the sample that armed it. -/
theorem setpoint_locked (pre : List Event) (e : Event)
    (was : (run env config s pre).data.state = .kInitializing)
    (armed : (run env config s (pre ++ [e])).data.state = .kOperating) :
    ∃ d now, e = .ahrs d now ∧ ∀ post,
      (run env config s (pre ++ e :: post)).data.desiredDeg.pitch = 0 ∧
      (run env config s (pre ++ e :: post)).data.desiredDeg.yaw = d.eulerDeg.yaw := by
  rw [run_append_singleton] at armed
  obtain ⟨d, now, rfl, arms⟩ := arming_call was armed
  refine ⟨d, now, rfl, fun post => ?_⟩
  have locked := step_data_of_arms arms
  rw [← List.singleton_append, ← List.append_assoc, run_append, run_append_singleton,
    run_desiredDeg (by simp [locked]) post, locked]
  simp

theorem setpoint_locked_on_bench : ∃ d now,
    Event.ahrs (benchSample false 45 20001) 20001 = .ahrs d now ∧ ∀ post,
      (run benchEnv benchConfig (Impl.init () ()) ([.ahrs (benchSample false 0 1) 1] ++
        .ahrs (benchSample false 45 20001) 20001 :: post)).data.desiredDeg.pitch = 0 ∧
      (run benchEnv benchConfig (Impl.init () ()) ([.ahrs (benchSample false 0 1) 1] ++
        .ahrs (benchSample false 45 20001) 20001 :: post)).data.desiredDeg.yaw = d.eulerDeg.yaw :=
  setpoint_locked _ _ rfl
    (by simp [run, step, handleAhrs, dispatch, doInitializing_data, initElapsed, benchEnv,
      benchConfig, Config.default, benchSample, Impl.init, UInt32.size])

end Lemmas

end Mjmech.Gimbal
