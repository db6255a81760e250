import Mathlib.Data.Rat.Floor
import Mjmech.Binary.Round

/-! The gimbal stabilizer of `gimbal_stabilizer.cc`: its configuration and telemetry data,
the outputs it drives, and its two entry points `HandleAhrs` and `PollMillisecond` as
functions of the state. `float` is modelled by `ℚ`: the watchdog's `elapsed_s` is rounded as
`float` arithmetic rounds it (`Binary.round`), and the other quantities are read exactly. `uint32_t`
is `UInt32`, so clock differences wrap. What the stabilizer takes from headers
that are not under `src/` (the clock's tick rate, the PID law, `std::sin`) is the
parameter `Env`. While `std::sin` stays within [-1, 1], the casts and clamps of the `phase`
lambda never act (`phase_within_clamps`). -/
namespace Mjmech.Gimbal

/-- `Euler`: attitude angles in degrees. -/
structure Euler where
  roll : ℚ := 0
  pitch : ℚ := 0
  yaw : ℚ := 0
  deriving DecidableEq, Repr

/-- `Point3D`: body rates in degrees per second. -/
structure Point3D where
  x : ℚ := 0
  y : ℚ := 0
  z : ℚ := 0
  deriving DecidableEq, Repr

/-- `AhrsData`, with the fields the stabilizer reads. -/
structure AhrsData where
  error : Bool
  eulerDeg : Euler
  bodyRateDps : Point3D
  timestamp : UInt32
  rateHz : ℚ
  deriving DecidableEq, Repr

/-- The arguments of `PID::Apply`, in its order. -/
structure PidInput where
  measured : ℚ
  desired : ℚ
  measuredRate : ℚ
  desiredRate : ℚ
  rateHz : ℚ

/-- What the stabilizer takes from headers that are not under `src/`. `clock.h` gives the
tick rate; the `float` cast `PollMillisecond` needs before dividing shows it is integral.
`pid.h` gives `PID::Apply` over the gains `PidConfig` and the loop state `PidState`: it
returns the command and the loop's next state. `sinTurn x` is `std::sin (x * 2 * kPi)`. -/
structure Env (PidConfig PidState : Type) where
  ticksPerSecond : ℕ
  ticksPerSecond_pos : 0 < ticksPerSecond
  apply : PidConfig → PidState → PidInput → ℚ × PidState
  sinTurn : ℚ → ℚ

/-- `ChannelConfig`: which motor drives the axis, and the axis's PID gains. -/
structure ChannelConfig (PidConfig : Type) where
  motor : UInt8
  pid : PidConfig

/-- `Config`, loaded once and never written by the stabilizer. -/
structure Config (PidConfig : Type) where
  initializationPeriodS : ℚ
  watchdogPeriodS : ℚ
  pitch : ChannelConfig PidConfig
  yaw : ChannelConfig PidConfig

/-- `Config()`: each `ChannelConfig` starts at motor `-1` (255) and the constructor binds
pitch to motor 1 and yaw to motor 2. The `0.1f` default is the float nearest 0.1. -/
def Config.default {PidConfig : Type} (pitchPid yawPid : PidConfig) : Config PidConfig where
  initializationPeriodS := 1
  watchdogPeriodS := 13421773 / 134217728
  pitch := { motor := 1, pid := pitchPid }
  yaw := { motor := 2, pid := yawPid }

/-- `GimbalStabilizer::Impl::State`. -/
inductive State
  | kInitializing
  | kOperating
  | kFault
  | kNumStates
  deriving DecidableEq, Repr

/-- `GimbalStabilizer::Impl::Data`, the telemetry record the stabilizer owns. -/
structure Data (PidState : Type) where
  state : State
  pitch : PidState
  yaw : PidState
  startTimestamp : UInt32
  desiredDeg : Euler
  desiredBodyRateDps : Point3D
  lastAhrsUpdate : UInt32
  torqueOn : Bool

/-- Three phase values, one `BldcPwm::Set(phase_a, phase_b, phase_c)`. -/
abbrev Phases := UInt16 × UInt16 × UInt16

/-- The stabilizer's state: `data_`, the level last written to `motor_enable_`, the phases
last set on `motor1_` and `motor2_`, and every snapshot `data_updater_` has published,
oldest first. -/
structure Impl (PidState : Type) where
  data : Data PidState
  motorEnable : Bool
  motor1 : Phases
  motor2 : Phases
  published : List (Data PidState)

/-- `Impl` as constructed: `data_` with its member defaults, nothing published, the enable
line low and both channels at rest. `Data::state` has no default member initializer; the
stabilizer starts in `kInitializing`, the value a zeroed pool leaves there. -/
def Impl.init {PidState : Type} (pitch yaw : PidState) : Impl PidState where
  data := { state := .kInitializing, pitch, yaw, startTimestamp := 0, desiredDeg := {},
            desiredBodyRateDps := {}, lastAhrsUpdate := 0, torqueOn := false }
  motorEnable := false
  motor1 := (0, 0, 0)
  motor2 := (0, 0, 0)
  published := []

/-- A bench setup for concrete runs: a 10 kHz clock, PID loops that command zero, and `sin`
at zero. -/
def benchEnv : Env Unit Unit := ⟨10000, by decide, fun _ loop _ => (0, loop), fun _ => 0⟩

/-- The default configuration over the bench's PID gains. -/
def benchConfig : Config Unit := Config.default () ()

/-- A bench sample: level pitch, the given yaw and sample timestamp, no body rates. -/
def benchSample (error : Bool) (yaw : ℚ) (timestamp : UInt32) : AhrsData :=
  { error, eulerDeg := { yaw }, bodyRateDps := {}, timestamp, rateHz := 400 }

/-- The two `BldcPwm` channels. -/
inductive Motor
  | motor1
  | motor2
  deriving DecidableEq, Repr

section Handlers

variable {PidConfig PidState : Type} (env : Env PidConfig PidState) (config : Config PidConfig)

/-- `pitch_motor()`: motor 1 unless the configuration names motor 2. -/
def pitchMotor : Motor :=
  if config.pitch.motor = 1 then .motor1 else if config.pitch.motor = 2 then .motor2 else .motor1

/-- `yaw_motor()`: motor 2 unless the configuration names motor 1. -/
def yawMotor : Motor :=
  if config.yaw.motor = 1 then .motor1 else if config.yaw.motor = 2 then .motor2 else .motor2

/-- `Set` on one channel. -/
def Impl.setMotor (s : Impl PidState) : Motor → Phases → Impl PidState
  | .motor1, p => { s with motor1 := p }
  | .motor2, p => { s with motor2 := p }

/-- `data_updater_()`: one telemetry snapshot of `data_`. -/
def Impl.publish (s : Impl PidState) : Impl PidState :=
  { s with published := s.published ++ [s.data] }

/-- `elapsed_s` of `DoInitializing`: the `uint32_t` difference divided by the integral tick
rate, so the quotient is truncated before it becomes a `float`. That whole number of seconds is
read exactly; its conversion to `float` is exact below 2^24. -/
def initElapsed (now start : UInt32) : ℚ :=
  ((now - start).toNat / env.ticksPerSecond : ℕ)

/-- `elapsed_s` of `PollMillisecond`: the difference is cast to `float`, then divided by the tick
rate, which becomes a `float` for the division, and the quotient is rounded to `float`. Both
operands are below 2^33, so nothing overflows. -/
def pollElapsed (now last : UInt32) : ℚ :=
  Binary.float32.round
    (Binary.float32.round (now - last).toNat / Binary.float32.round env.ticksPerSecond)

/-- `DoFault`: the safe state, torque off, the enable line low and both channels at zero. -/
def doFault (s : Impl PidState) : Impl PidState :=
  { s with data := { s.data with state := .kFault, torqueOn := false },
           motorEnable := false, motor1 := (0, 0, 0), motor2 := (0, 0, 0) }

/-- `DoInitializing`, with `now` the clock reading. An error restarts the arming timer, the
first good sample starts it (`0` is the "not started" sentinel), and a later good sample
arms once the elapsed time exceeds `initialization_period_s`. -/
def doInitializing (s : Impl PidState) (d : AhrsData) (now : UInt32) : Impl PidState :=
  let s := { s with motorEnable := false }
  if d.error then { s with data := { s.data with startTimestamp := 0 } }
  else if s.data.startTimestamp = 0 then { s with data := { s.data with startTimestamp := now } }
  else if initElapsed env now s.data.startTimestamp > config.initializationPeriodS then
    { s with data := { s.data with
        desiredDeg := { s.data.desiredDeg with pitch := 0, yaw := d.eulerDeg.yaw },
        lastAhrsUpdate := now, state := .kOperating } }
  else s

/-- The `phase` lambda of `DoOperating`: `(sin((command + phase) * 2π) + 1) * 32767`,
truncated by the `uint32_t` cast (undefined below zero, which `sin ≥ -1` excludes) and
clamped to 65535. -/
def phase (command offset : ℚ) : UInt16 :=
  UInt16.ofNat (min 65535 ⌊(env.sinTurn (command + offset) + 1) * 32767⌋₊)

/-- The three phases 120° apart that `DoOperating` writes for one command. -/
def phases (command : ℚ) : Phases :=
  (phase env command 0, phase env command (1 / 3), phase env command (2 / 3))

/-- `DoOperating`: an error faults; otherwise the sample is recorded, the enable line follows
`torque_on`, both PID loops run and each command drives its configured motor. -/
def doOperating (s : Impl PidState) (d : AhrsData) : Impl PidState :=
  if d.error then doFault s
  else
    let pitchOut := env.apply config.pitch.pid s.data.pitch
      ⟨d.eulerDeg.pitch, s.data.desiredDeg.pitch, d.bodyRateDps.x, s.data.desiredBodyRateDps.x,
        d.rateHz⟩
    let yawOut := env.apply config.yaw.pid s.data.yaw
      ⟨d.eulerDeg.yaw, s.data.desiredDeg.yaw, d.bodyRateDps.z, s.data.desiredBodyRateDps.z,
        d.rateHz⟩
    let s := { s with
      data := { s.data with lastAhrsUpdate := d.timestamp, pitch := pitchOut.2, yaw := yawOut.2 },
      motorEnable := s.data.torqueOn }
    (s.setMotor (pitchMotor config) (phases env pitchOut.1)).setMotor (yawMotor config)
      (phases env yawOut.1)

/-- The `switch` of `HandleAhrs`. `kNumStates` reaches `assert(false)`, which changes no
state. -/
def dispatch (s : Impl PidState) (d : AhrsData) (now : UInt32) : Impl PidState :=
  match s.data.state with
  | .kInitializing => doInitializing env config s d now
  | .kOperating => doOperating env config s d
  | .kFault => doFault s
  | .kNumStates => s

/-- `HandleAhrs`: dispatch on the state, then publish `data_` once. -/
def handleAhrs (s : Impl PidState) (d : AhrsData) (now : UInt32) : Impl PidState :=
  (dispatch env config s d now).publish

/-- `PollMillisecond`, with `now` the clock reading: fault from `kOperating` once the last
sample is older than `watchdog_period_s`. -/
def pollMillisecond (s : Impl PidState) (now : UInt32) : Impl PidState :=
  match s.data.state with
  | .kOperating =>
    if pollElapsed env now s.data.lastAhrsUpdate > config.watchdogPeriodS then doFault s else s
  | .kInitializing | .kFault => s
  | .kNumStates => s

end Handlers

/-- The `uint32_t` difference is the true difference modulo 2^32. -/
theorem toNat_sub_eq_emod (a b : UInt32) :
    ((a - b).toNat : ℤ) = ((a.toNat : ℤ) - b.toNat) % 2 ^ 32 := by
  have wrapped : (a - b).toNat = (2 ^ 32 - b.toNat + a.toNat) % 2 ^ 32 := BitVec.toNat_sub ..
  have ha : a.toNat < 2 ^ 32 := a.toNat_lt_size
  have hb : b.toNat < 2 ^ 32 := b.toNat_lt_size
  omega

/-- A count below 2^32 added to a clock reading is recovered by the `uint32_t` difference,
however the sum wraps. -/
theorem add_ofNat_sub (last : UInt32) {ticks : ℕ} (small : ticks < 2 ^ 32) :
    (last + UInt32.ofNat ticks - last).toNat = ticks := by
  have wrapped : (last + UInt32.ofNat ticks - last).toNat =
      (2 ^ 32 - last.toNat + (last.toNat + ticks % 2 ^ 32) % 2 ^ 32) % 2 ^ 32 := by
    show (last.toBitVec + BitVec.ofNat 32 ticks - last.toBitVec).toNat = _
    rw [BitVec.toNat_sub, BitVec.toNat_add, BitVec.toNat_ofNat]; rfl
  have bound : last.toNat < 2 ^ 32 := last.toNat_lt_size
  omega

section Lemmas

variable {PidConfig PidState : Type} {env : Env PidConfig PidState} {config : Config PidConfig}
  {s : Impl PidState} {d : AhrsData} {now : UInt32}

@[simp] theorem Impl.publish_data : s.publish.data = s.data := rfl
@[simp] theorem Impl.publish_motorEnable : s.publish.motorEnable = s.motorEnable := rfl
@[simp] theorem Impl.publish_motor1 : s.publish.motor1 = s.motor1 := rfl
@[simp] theorem Impl.publish_motor2 : s.publish.motor2 = s.motor2 := rfl

@[simp] theorem Impl.setMotor_data (m : Motor) (p : Phases) : (s.setMotor m p).data = s.data := by
  cases m <;> rfl

@[simp] theorem Impl.setMotor_motorEnable (m : Motor) (p : Phases) :
    (s.setMotor m p).motorEnable = s.motorEnable := by
  cases m <;> rfl

@[simp] theorem doFault_data : (doFault s).data = { s.data with state := .kFault, torqueOn := false } :=
  rfl
@[simp] theorem doFault_motorEnable : (doFault s).motorEnable = false := rfl
@[simp] theorem doFault_motor1 : (doFault s).motor1 = (0, 0, 0) := rfl
@[simp] theorem doFault_motor2 : (doFault s).motor2 = (0, 0, 0) := rfl

@[simp] theorem doInitializing_motorEnable : (doInitializing env config s d now).motorEnable = false := by
  simp only [doInitializing, apply_ite Impl.motorEnable, ite_self]

@[simp] theorem doInitializing_motor1 : (doInitializing env config s d now).motor1 = s.motor1 := by
  simp only [doInitializing, apply_ite Impl.motor1, ite_self]

@[simp] theorem doInitializing_motor2 : (doInitializing env config s d now).motor2 = s.motor2 := by
  simp only [doInitializing, apply_ite Impl.motor2, ite_self]

/-- What `DoInitializing` writes to `data_`, branch by branch. -/
theorem doInitializing_data : (doInitializing env config s d now).data =
    if d.error then { s.data with startTimestamp := 0 }
    else if s.data.startTimestamp = 0 then { s.data with startTimestamp := now }
    else if initElapsed env now s.data.startTimestamp > config.initializationPeriodS then
      { s.data with
        desiredDeg := { s.data.desiredDeg with pitch := 0, yaw := d.eulerDeg.yaw },
        lastAhrsUpdate := now, state := .kOperating }
    else s.data := by
  simp only [doInitializing, apply_ite Impl.data]

/-- A sample that does not arm changes no field of `data_` but the timer. -/
theorem doInitializing_data_of_not_arming
    (calm : d.error = false → s.data.startTimestamp ≠ 0 →
      ¬ initElapsed env now s.data.startTimestamp > config.initializationPeriodS) :
    (doInitializing env config s d now).data =
      { s.data with startTimestamp := (doInitializing env config s d now).data.startTimestamp } := by
  rw [doInitializing_data]
  split_ifs with error zero due
  · rfl
  · rfl
  · exact absurd due (calm (Bool.of_not_eq_true error) zero)
  · rfl

/-- The watchdog's elapsed time is the wrapped tick count over the tick rate, in `float`. -/
theorem pollElapsed_eq (now last : UInt32) : pollElapsed env now last =
    Binary.float32.round (Binary.float32.round ((((now.toNat : ℤ) - last.toNat) % 2 ^ 32 : ℤ) : ℚ) /
      Binary.float32.round env.ticksPerSecond) := by
  rw [pollElapsed, ← toNat_sub_eq_emod, Int.cast_natCast]

theorem doOperating_of_error (error : d.error = true) : doOperating env config s d = doFault s := by
  simp [doOperating, error]

/-- A good sample in `kOperating` records its timestamp and the PID loops' next states, and
writes nothing else of `data_`. -/
theorem doOperating_data (good : d.error = false) : (doOperating env config s d).data =
    { s.data with
      lastAhrsUpdate := d.timestamp,
      pitch := (env.apply config.pitch.pid s.data.pitch
        ⟨d.eulerDeg.pitch, s.data.desiredDeg.pitch, d.bodyRateDps.x, s.data.desiredBodyRateDps.x,
          d.rateHz⟩).2,
      yaw := (env.apply config.yaw.pid s.data.yaw
        ⟨d.eulerDeg.yaw, s.data.desiredDeg.yaw, d.bodyRateDps.z, s.data.desiredBodyRateDps.z,
          d.rateHz⟩).2 } := by
  simp [doOperating, good]

theorem doOperating_motorEnable (good : d.error = false) :
    (doOperating env config s d).motorEnable = s.data.torqueOn := by
  simp [doOperating, good]

/-- With `std::sin` between -1 and 1, the casts and clamps of the `phase` lambda never act: the
value cast to `uint32_t` is never negative, and the phase is its truncation, at most 65534, so
neither `std::min(65535, ...)` nor `std::max(0, ...)` changes it. -/
theorem phase_within_clamps (bounded : ∀ x, -1 ≤ env.sinTurn x ∧ env.sinTurn x ≤ 1)
    (command offset : ℚ) :
    0 ≤ (env.sinTurn (command + offset) + 1) * 32767 ∧
      (phase env command offset).toNat = ⌊(env.sinTurn (command + offset) + 1) * 32767⌋₊ ∧
      (phase env command offset).toNat ≤ 65534 := by
  obtain ⟨low, high⟩ := bounded (command + offset)
  have below : ⌊(env.sinTurn (command + offset) + 1) * 32767⌋₊ ≤ 65534 :=
    Nat.floor_le_of_le (by push_cast; linarith)
  rw [phase, Nat.min_eq_right (by omega),
    UInt16.toNat_ofNat_of_lt (by simp only [UInt16.size]; omega)]
  exact ⟨by linarith, rfl, below⟩

end Lemmas

/-- On the bench, where `sinTurn` is 0, the phase a third of a turn on is the midpoint. -/
theorem phase_within_clamps_on_bench :
    (∀ x, -1 ≤ benchEnv.sinTurn x ∧ benchEnv.sinTurn x ≤ 1) ∧
      0 ≤ (benchEnv.sinTurn (0 + 1 / 3) + 1) * 32767 ∧
      (phase benchEnv 0 (1 / 3)).toNat = ⌊(benchEnv.sinTurn (0 + 1 / 3) + 1) * 32767⌋₊ ∧
      (phase benchEnv 0 (1 / 3)).toNat ≤ 65534 :=
  have bounded : ∀ x, -1 ≤ benchEnv.sinTurn x ∧ benchEnv.sinTurn x ≤ 1 := fun _ => by
    norm_num [benchEnv]
  ⟨bounded, phase_within_clamps bounded 0 (1 / 3)⟩

end Mjmech.Gimbal
