import Mjmech.Binary.Value

/-! The playback clock of `tplot2.cc`: `Timeline`. It holds the time shown as `float_time_`
seconds since the log's first item. Each frame its widgets may set that time (the `Time`
slider), step it by `step_` (`StepR`, `StepF`), choose a mode (the other radio buttons) or edit
`step_` and `fast_speed_`, and then the wall-clock time since the previous frame, `dt_s`, moves
it at the mode's speed. The fields are `float`s and `dt_s` a `double`, with the arithmetic of
`Mjmech.Binary.Value`; wall-clock readings are microseconds. Left alone with a clock that does
not run backwards, the timeline moves only in its mode's direction, and nothing but the slider
keeps it within the log (`idle_run_moves_with_mode`). The step buttons stop it, and the time
after them is what the presses alone make of it, however much wall-clock time passes
(`steps_ignore_clock`). -/
namespace Mjmech.Tplot

/-- `Timeline::Mode`. -/
inductive Timeline.Mode
  | kFastRewind
  | kRewind
  | kStop
  | kPlay
  | kFastForward
  deriving DecidableEq, Repr

/-- `Timeline`'s state: `mode_`, `start_`, `float_range_`, `float_time_`, `step_`,
`fast_speed_` and `last_update_`, `none` while it is `not_a_date_time`. -/
structure Timeline where
  mode : Timeline.Mode
  start : ℤ
  floatRange : Flt .float32
  floatTime : Flt .float32
  step : Flt .float32
  fastSpeed : Flt .float32
  lastUpdate : Option ℤ

namespace Timeline

/-- The constructor, from the timestamps of the log's first and final items: stopped at the
start, with `step_` and `fast_speed_` the `double` literals `0.01` and `0.1` made `float`s. -/
def make (first final : ℤ) : Timeline where
  mode := .kStop
  start := first
  floatRange := Flt.narrow (convertDurationToSeconds ((final - first : ℤ) : ℚ))
  floatTime := Flt.ofRat 0
  step := Flt.narrow (Binary.float64.ofRat (1 / 100))
  fastSpeed := Flt.narrow (Binary.float64.ofRat (1 / 10))
  lastUpdate := none

/-- The radio buttons of `Update`, in their order. -/
inductive Button
  | rr
  | stepR
  | rewind
  | stop
  | play
  | stepF
  | ff
  deriving DecidableEq, Repr

/-- What one frame's widgets report: the time the `Time` slider was set to, the radio button
clicked, and the values entered in `Step` and `Speed`. -/
structure Input where
  slider : Option (Flt .float32)
  button : Option Button
  step : Option (Flt .float32)
  speed : Option (Flt .float32)

/-- A frame in which the user touches nothing. -/
def Input.idle : Input := ⟨none, none, none, none⟩

/-- The radio buttons: a mode button selects its mode; `StepR` and `StepF` move the time by
`step_` in `float` and stop. -/
def press (mode : Mode) (floatTime step : Flt .float32) : Option Button → Mode × Flt .float32
  | some .rr => (.kFastRewind, floatTime)
  | some .stepR => (.kStop, floatTime.sub step)
  | some .rewind => (.kRewind, floatTime)
  | some .stop => (.kStop, floatTime)
  | some .play => (.kPlay, floatTime)
  | some .stepF => (.kStop, floatTime.add step)
  | some .ff => (.kFastForward, floatTime)
  | none => (mode, floatTime)

/-- The `switch (mode_)` of `Update`: the `float` time, widened to `double`, moved by `dt_s`
(times `fast_speed_`, in `double`) and stored back as a `float`. -/
def advance (fastSpeed : Flt .float32) (dtS : Val) (floatTime : Flt .float32) : Mode → Flt .float32
  | .kFastRewind =>
    Flt.narrow (Binary.float64.sub floatTime.val (Binary.float64.mul fastSpeed.val dtS))
  | .kRewind => Flt.narrow (Binary.float64.sub floatTime.val dtS)
  | .kStop => floatTime
  | .kPlay => Flt.narrow (Binary.float64.add floatTime.val dtS)
  | .kFastForward =>
    Flt.narrow (Binary.float64.add floatTime.val (Binary.float64.mul fastSpeed.val dtS))

/-- `Update`, with `now` the wall clock's reading: the widgets in their order, then `dt_s`, the
seconds since the previous frame (0 on the first), moves the time at the mode's speed. -/
def update (tl : Timeline) (input : Input) (now : ℤ) : Timeline :=
  let floatTime := input.slider.getD tl.floatTime
  let (mode, floatTime) := press tl.mode floatTime tl.step input.button
  let step := input.step.getD tl.step
  let fastSpeed := input.speed.getD tl.fastSpeed
  let dtS : Val := match tl.lastUpdate with
    | none => .fin 0
    | some last => convertDurationToSeconds ((now - last : ℤ) : ℚ)
  { tl with mode, floatTime := advance fastSpeed dtS floatTime mode, step, fastSpeed,
            lastUpdate := some now }

/-- The direction each mode moves the time in, in the IEEE order: back, back, not at all,
forward, forward. -/
def Mode.Follows : Mode → Flt .float32 → Flt .float32 → Prop
  | .kFastRewind, before, after | .kRewind, before, after => after ≤ before
  | .kStop, before, after => after = before
  | .kPlay, before, after | .kFastForward, before, after => before ≤ after

theorem Mode.follows_trans {mode : Mode} {a b c : Flt .float32} (first : mode.Follows a b)
    (second : mode.Follows b c) : mode.Follows a c := by
  cases mode
  all_goals first
    | exact Val.le_trans second first
    | exact Val.le_trans first second
    | exact second.trans first

/-- A `double` literal in `[0, 1]` made a `float` is a finite, non-negative `float`, as the
constructor's `0.01` and `0.1` are. -/
theorem narrow_literal {x : ℚ} (nonneg : 0 ≤ x) (small : x ≤ 1) :
    ∃ s, (Flt.narrow (Binary.float64.ofRat x) : Flt .float32).val = .fin s ∧ 0 ≤ s := by
  have bound : |x| ≤ 2 ^ (0 : ℤ) := by rwa [abs_of_nonneg nonneg, zpow_zero]
  have wide := @Binary.ofRat_of_le Binary.float64 x 0 bound (by norm_num [Binary.float64])
    (by norm_num [Binary.emax, Binary.float64])
  have narrowBound := @Binary.abs_round_le Binary.float64 x 0 bound (by norm_num [Binary.float64])
  have narrow := @Binary.ofRat_of_le Binary.float32 _ 0 narrowBound (by norm_num [Binary.float32])
    (by norm_num [Binary.emax, Binary.float32])
  refine ⟨Binary.float32.round (Binary.float64.round x), ?_,
    Binary.round_nonneg (Binary.round_nonneg nonneg)⟩
  show Binary.float32.narrow (Binary.float64.ofRat x) = _
  rw [wide]
  exact narrow

theorem make_floatTime (first final : ℤ) : (make first final).floatTime.val = .fin 0 := by
  show Binary.float32.ofRat 0 = _
  exact Binary.ofRat_of_inFormat ⟨Binary.round_zero, by rw [abs_zero]; exact zpow_pos two_pos _⟩

section Moves

/-- A `float` time moved by a finite non-negative `double` amount goes the way it is moved. -/
theorem narrow_add_fin {t : Flt .float32} (number : t.val ≠ .nan) {p : ℚ} (nonneg : 0 ≤ p) :
    t ≤ Flt.narrow (Binary.float64.add t.val (.fin p)) := by
  have wide := Binary.le_add_fin number t.inFormat.float64 nonneg
  have narrowed := @Binary.narrow_mono Binary.float32 _ _ wide
  rwa [Binary.narrow_of_inFormat t.inFormat] at narrowed

theorem narrow_sub_fin {t : Flt .float32} (number : t.val ≠ .nan) {p : ℚ} (nonneg : 0 ≤ p) :
    Flt.narrow (Binary.float64.sub t.val (.fin p)) ≤ t := by
  have wide := Binary.sub_fin_le number t.inFormat.float64 nonneg
  have narrowed := @Binary.narrow_mono Binary.float32 _ _ wide
  rwa [Binary.narrow_of_inFormat t.inFormat] at narrowed

/-- A finite non-negative `float` speed times a `dt_s` below 2^44 is a finite non-negative
`double`. -/
theorem mul_fin_of_le {s r : ℚ} (inFormat : (Val.fin s).InFormat .float32) (speedNonneg : 0 ≤ s)
    (nonneg : 0 ≤ r) (small : r ≤ 2 ^ (44 : ℤ)) :
    ∃ p, Binary.float64.mul (.fin s) (.fin r) = .fin p ∧ 0 ≤ p := by
  have speed : s ≤ 2 ^ (128 : ℤ) := by
    have fits := inFormat.2
    rw [abs_of_nonneg speedNonneg] at fits
    exact fits.le.trans_eq (by norm_num [Binary.emax, Binary.float32])
  have product : |s * r| ≤ 2 ^ (172 : ℤ) := by
    rw [abs_of_nonneg (mul_nonneg speedNonneg nonneg)]
    calc s * r ≤ 2 ^ (128 : ℤ) * 2 ^ (44 : ℤ) := mul_le_mul speed small nonneg (by positivity)
      _ = 2 ^ (172 : ℤ) := by norm_num
  exact ⟨_, Binary.ofRat_of_le product (by norm_num [Binary.float64])
    (by norm_num [Binary.emax, Binary.float64]), Binary.round_nonneg (mul_nonneg speedNonneg nonneg)⟩

/-- One `switch (mode_)` with a finite non-negative `dt_s` and speed moves a time that is not
NaN the mode's way. -/
theorem advance_follows {fastSpeed floatTime : Flt .float32} {s r : ℚ} (number : floatTime.val ≠ .nan)
    (speed : fastSpeed.val = .fin s) (speedNonneg : 0 ≤ s) (nonneg : 0 ≤ r) (small : r ≤ 2 ^ (44 : ℤ))
    (mode : Mode) : mode.Follows floatTime (advance fastSpeed (.fin r) floatTime mode) := by
  obtain ⟨p, product, productNonneg⟩ :=
    mul_fin_of_le (speed ▸ fastSpeed.inFormat) speedNonneg nonneg small
  cases mode with
  | kFastRewind =>
    show Flt.narrow (Binary.float64.sub _ (Binary.float64.mul fastSpeed.val _)) ≤ _
    rw [speed, product]
    exact narrow_sub_fin number productNonneg
  | kRewind => exact narrow_sub_fin number nonneg
  | kStop => rfl
  | kPlay => exact narrow_add_fin number nonneg
  | kFastForward =>
    show _ ≤ Flt.narrow (Binary.float64.add _ (Binary.float64.mul fastSpeed.val _))
    rw [speed, product]
    exact narrow_add_fin number productNonneg

theorem Mode.follows_ne_nan {mode : Mode} {before after : Flt .float32}
    (follows : mode.Follows before after) (number : before.val ≠ .nan) : after.val ≠ .nan := by
  cases mode
  all_goals first
    | exact (Val.ne_nan_of_le follows).1
    | exact (Val.ne_nan_of_le follows).2
    | exact follows ▸ number

end Moves

section Idle

variable {tl : Timeline} {now : ℤ}

@[simp] theorem update_idle_mode : (tl.update .idle now).mode = tl.mode := rfl
@[simp] theorem update_idle_lastUpdate : (tl.update .idle now).lastUpdate = some now := rfl

/-- The clock readings a run of frames sees, the previous frame's first, never run backwards
and never jump past boost's 64-bit microsecond count. -/
def Ticking (readings : List ℤ) : Prop :=
  readings.Chain' fun earlier later => earlier ≤ later ∧ later - earlier < 2 ^ 63

/-- An idle frame after a reading no later than `now` and less than 2^63 microseconds before it
moves a time that is not NaN the mode's way. -/
theorem update_idle_follows (number : tl.floatTime.val ≠ .nan) {s : ℚ}
    (speed : tl.fastSpeed.val = .fin s) (speedNonneg : 0 ≤ s)
    (ticking : ∀ last ∈ tl.lastUpdate, last ≤ now ∧ now - last < 2 ^ 63) :
    tl.mode.Follows tl.floatTime (tl.update .idle now).floatTime := by
  obtain ⟨r, dt, nonneg, small⟩ : ∃ r, (match tl.lastUpdate with
      | none => Val.fin 0
      | some last => convertDurationToSeconds ((now - last : ℤ) : ℚ)) = .fin r ∧ 0 ≤ r ∧
      r ≤ 2 ^ (44 : ℤ) := by
    cases h : tl.lastUpdate with
    | none => exact ⟨0, rfl, le_rfl, by positivity⟩
    | some last =>
      obtain ⟨order, gap⟩ := ticking last h
      exact convertDurationToSeconds_of_nonneg (by omega) gap
  show tl.mode.Follows tl.floatTime (advance tl.fastSpeed _ tl.floatTime tl.mode)
  rw [dt]
  exact advance_follows number speed speedNonneg nonneg small tl.mode

end Idle

/-- A frame in which the user presses `StepF` (`forward`) or `StepR` and touches nothing
else. -/
def Input.stepping (forward : Bool) : Input :=
  ⟨none, some (if forward then .stepF else .stepR), none, none⟩

section Steps

variable {tl : Timeline} {forward : Bool} {now : ℤ}

@[simp] theorem update_stepping_mode : (tl.update (.stepping forward) now).mode = .kStop := by
  cases forward <;> rfl

@[simp] theorem update_stepping_step : (tl.update (.stepping forward) now).step = tl.step := by
  cases forward <;> rfl

/-- A step frame moves the time by its press and no more: the press stops playback before the
frame's wall-clock seconds are applied. -/
theorem update_stepping_floatTime : (tl.update (.stepping forward) now).floatTime =
    (press .kStop tl.floatTime tl.step (Input.stepping forward).button).2 := by
  cases forward <;> rfl

/-- With a finite non-negative `step_`, a `StepF` press never moves a time that is not NaN
back. -/
theorem press_stepF_le {t step : Flt .float32} (number : t.val ≠ .nan) {s : ℚ}
    (finite : step.val = .fin s) (nonneg : 0 ≤ s) : t ≤ (press .kStop t step (some .stepF)).2 := by
  show t.val ≤ Binary.float32.add t.val step.val
  rw [finite]
  exact Binary.le_add_fin number t.inFormat nonneg

end Steps

end Timeline

end Mjmech.Tplot
