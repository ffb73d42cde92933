import Mathlib.Data.Int.Notation
import SbcImageBuild.Foundation.StepSystem

/-!
# Power states of the modem driver

`pm_state` of the controller under all that changes it: the events of the device, suspend and
resume, system errors, shutdown and power-up, in any order. Every critical section is a step.
-/
namespace MhiPowerState

open StepSystem

inductive PmState where
  | disable
  | por
  | m0
  | m2
  | m3Enter
  | m3
  | m3Exit
  | fwDlErr
  | sysErrDetect
  | sysErrProcess
  | shutdownProcess
  | ldErrFatalDetect
  deriving DecidableEq

def PmState.bit : PmState → ℕ
  | .disable => 0
  | .por => 1
  | .m0 => 2
  | .m2 => 3
  | .m3Enter => 4
  | .m3 => 5
  | .m3Exit => 6
  | .fwDlErr => 7
  | .sysErrDetect => 8
  | .sysErrProcess => 9
  | .shutdownProcess => 10
  | .ldErrFatalDetect => 11

/-- The values of `enum MHI_PM_STATE`. -/
def PmState.toNat (a : PmState) : ℕ := 1 <<< a.bit

def mask (states : List PmState) : ℕ := states.foldl (fun w a => w ||| a.toNat) 0

def mhiStateTransitions : List (ℕ × ℕ) := [
  (PmState.toNat .disable, mask [.por]),
  (PmState.toNat .por,
    mask [.por, .disable, .m0, .sysErrDetect, .shutdownProcess, .ldErrFatalDetect, .fwDlErr]),
  (PmState.toNat .m0,
    mask [.m2, .m3Enter, .sysErrDetect, .shutdownProcess, .ldErrFatalDetect, .fwDlErr]),
  (PmState.toNat .m2, mask [.m0, .sysErrDetect, .shutdownProcess, .ldErrFatalDetect]),
  (PmState.toNat .m3Enter, mask [.m3, .sysErrDetect, .shutdownProcess, .ldErrFatalDetect]),
  (PmState.toNat .m3, mask [.m3Exit, .sysErrDetect, .shutdownProcess, .ldErrFatalDetect]),
  (PmState.toNat .m3Exit, mask [.m0, .sysErrDetect, .shutdownProcess, .ldErrFatalDetect]),
  (PmState.toNat .fwDlErr, mask [.fwDlErr, .sysErrDetect, .shutdownProcess, .ldErrFatalDetect]),
  (PmState.toNat .sysErrDetect, mask [.sysErrProcess, .shutdownProcess, .ldErrFatalDetect]),
  (PmState.toNat .sysErrProcess, mask [.por, .shutdownProcess, .ldErrFatalDetect]),
  (PmState.toNat .shutdownProcess, mask [.disable, .ldErrFatalDetect]),
  (PmState.toNat .ldErrFatalDetect, mask [.ldErrFatalDetect, .shutdownProcess])]

/-- `find_last_bit` over 32 bits, which is 32 where no bit is set. -/
def findLastBit (w : ℕ) : ℕ := if w = 0 then 32 else Nat.log2 w

/-- The state afterwards, which is also the value that `mhi_tryset_pm_state` returns. -/
def trysetPmState (cur state : ℕ) : ℕ :=
  match mhiStateTransitions[findLastBit cur]? with
  | none => cur
  | some (fromState, toStates) =>
    if fromState ≠ cur then cur else if toStates &&& state = 0 then cur else state

def pmInErrorState (pmState : ℕ) : Bool := PmState.toNat .fwDlErr ≤ pmState

def dbAccessValid (pmState : ℕ) : Bool := pmState &&& PmState.toNat .m0 ≠ 0

inductive DevState where
  | reset
  | ready
  | m0
  | m2
  | m3
  deriving DecidableEq

structure Cntrl where
  pmState : ℕ
  devState : DevState
  devWake : ℕ
  wakeDb : Bool
  deriving DecidableEq

section Transitions

variable (c : Cntrl)

/-- Only the register is written, and only in M2. The counter is behind an early return. -/
def assertDevWake : Cntrl := if c.devState = .m2 then { c with wakeDb := true } else c

def deassertDevWake : Cntrl := c

def readyStateTransition : Cntrl :=
  { c with pmState := trysetPmState c.pmState (PmState.toNat .por), devState := .ready }

def pmM0Transition : Cntrl :=
  { c with pmState := trysetPmState c.pmState (PmState.toNat .m0), devState := .m0 }

def pmM1Transition : Cntrl :=
  let state := trysetPmState c.pmState (PmState.toNat .m2)
  if state = PmState.toNat .m2 then
    let c := { c with pmState := state, devState := .m2 }
    if c.devWake ≠ 0 then deassertDevWake (assertDevWake c) else c
  else { c with pmState := state }

def pmM3Transition : Cntrl :=
  { c with pmState := trysetPmState c.pmState (PmState.toNat .m3), devState := .m3 }

/-- From an event, from the interrupt or from the debug file. -/
def sysErrDetected : Cntrl :=
  { c with pmState := trysetPmState c.pmState (PmState.toNat .sysErrDetect) }

/-- The two transitions of `mhi_pm_disable_transition`. -/
inductive Disable where
  | sysErr
  | shutdown
  deriving DecidableEq

def Disable.state : Disable → PmState
  | .sysErr => .sysErrProcess
  | .shutdown => .shutdownProcess

def pmDisableBegin (d : Disable) : Cntrl :=
  let state := trysetPmState c.pmState d.state.toNat
  if state = d.state.toNat then { c with pmState := state, devState := .reset }
  else { c with pmState := state }

/-- `edl` is a device that waits for an emergency download. -/
def pmDisableEnd (edl : Bool) : Disable → Cntrl
  | .sysErr =>
    if edl then { c with pmState := trysetPmState c.pmState (PmState.toNat .por) }
    else readyStateTransition c
  | .shutdown => { c with pmState := trysetPmState c.pmState (PmState.toNat .disable) }

/-- A shutdown that is not graceful. -/
def linkDown : Cntrl :=
  { c with pmState := trysetPmState c.pmState (PmState.toNat .ldErrFatalDetect) }

def downloadRddmInPanic : Cntrl := { c with pmState := PmState.toNat .ldErrFatalDetect }

def powerUpDisable : Cntrl := { c with pmState := PmState.toNat .disable, devState := .reset }

def powerUpPor : Cntrl := { c with pmState := PmState.toNat .por }

def eInval : ℤ := 22
def eIo : ℤ := 5
def eBusy : ℤ := 16

/-- `mhi_pm_suspend` up to its wait for M0. -/
def pmSuspendCheck : ℤ × Cntrl :=
  if c.pmState = PmState.toNat .disable then (-eInval, c)
  else if pmInErrorState c.pmState then (-eIo, c)
  else if c.devWake ≠ 0 then (-eBusy, c)
  else (0, assertDevWake c)

/-- The part behind the wait. -/
def pmSuspendEnter : ℤ × Cntrl :=
  if 1 < c.devWake then (-eBusy, deassertDevWake c)
  else
    let state := trysetPmState c.pmState (PmState.toNat .m3Enter)
    let c := { c with pmState := state }
    (if state ≠ PmState.toNat .m3Enter then -eIo else 0, deassertDevWake c)

def pmResume : ℤ × Cntrl :=
  if c.pmState = PmState.toNat .disable then (0, c)
  else if pmInErrorState c.pmState then (-eIo, c)
  else
    let state := trysetPmState c.pmState (PmState.toNat .m3Exit)
    let c := { c with pmState := state }
    if state ≠ PmState.toNat .m3Exit then (-eIo, c) else (0, assertDevWake c)

end Transitions

inductive Event where
  | ready
  | m0
  | m1
  | m3
  | sysErr
  | disableBegin (d : Disable)
  | disableEnd (edl : Bool) (d : Disable)
  | linkDown
  | panic
  | powerUpDisable
  | powerUpPor
  | suspendCheck
  | suspendEnter
  | resume
  | wakeGet
  | wakePut
  deriving DecidableEq

def next (c : Cntrl) : Event → Cntrl
  | .ready => readyStateTransition c
  | .m0 => pmM0Transition c
  | .m1 => pmM1Transition c
  | .m3 => pmM3Transition c
  | .sysErr => sysErrDetected c
  | .disableBegin d => pmDisableBegin c d
  | .disableEnd edl d => pmDisableEnd c edl d
  | .linkDown => linkDown c
  | .panic => downloadRddmInPanic c
  | .powerUpDisable => powerUpDisable c
  | .powerUpPor => powerUpPor c
  | .suspendCheck => (pmSuspendCheck c).2
  | .suspendEnter => (pmSuspendEnter c).2
  | .resume => (pmResume c).2
  | .wakeGet => assertDevWake c
  | .wakePut => deassertDevWake c

def step (c : Cntrl) (e : Event) : Option Cntrl := some (next c e)

/-- The controller as a power-up finds it. -/
def start : Cntrl := powerUpDisable ⟨0, .reset, 0, false⟩

/-! ### What the comment above the table says -/

/-- The levels L0 to L3. -/
def PmState.level : PmState → ℕ
  | .sysErrDetect | .sysErrProcess => 1
  | .shutdownProcess => 2
  | .ldErrFatalDetect => 3
  | _ => 0

def PmState.starts : PmState → Bool
  | .sysErrDetect | .shutdownProcess | .ldErrFatalDetect => true
  | _ => false

/-- The arrows that are drawn. -/
def drawn : PmState → List PmState
  | .disable => [.por]
  | .por => [.disable, .por, .m0, .fwDlErr]
  | .m0 => [.m2, .m3Enter, .fwDlErr]
  | .m2 => [.m0]
  | .m3Enter => [.m3]
  | .m3 => [.m3Exit]
  | .m3Exit => [.m0]
  | .fwDlErr => [.fwDlErr]
  | .sysErrDetect => [.sysErrProcess]
  | .sysErrProcess => [.por]
  | .shutdownProcess => [.disable]
  | .ldErrFatalDetect => [.ldErrFatalDetect, .shutdownProcess]

/-- An arrow, or the start of a higher level, from any state but DISABLE. -/
def documented (a b : PmState) : Bool :=
  b ∈ drawn a ∨ a ≠ .disable ∧ a.level < b.level ∧ b.starts

/-- The table is what the comment says. -/
theorem trysetPmState_eq (a b : PmState) :
    trysetPmState a.toNat b.toNat = if documented a b then b.toNat else a.toNat := by
  cases a <;> cases b <;> decide

theorem toNat_injective {a b : PmState} (h : a.toNat = b.toNat) : a = b := by
  revert h
  cases a <;> cases b <;> decide

/-- Both guards of `mhi_tryset_pm_state` pass. -/
theorem table_row (a : PmState) :
    (mhiStateTransitions[findLastBit a.toNat]?).map Prod.fst = some a.toNat := by
  cases a <;> decide

/-- The states that are entered without a look at the table. -/
def forced : Event → Option PmState
  | .panic => some .ldErrFatalDetect
  | .powerUpDisable => some .disable
  | .powerUpPor => some .por
  | _ => none

/-- The states that an event asks for. -/
def wanted : Event → List PmState
  | .ready => [.por]
  | .m0 => [.m0]
  | .m1 => [.m2]
  | .m3 => [.m3]
  | .sysErr => [.sysErrDetect]
  | .disableBegin d => [d.state]
  | .disableEnd _ .sysErr => [.por]
  | .disableEnd _ .shutdown => [.disable]
  | .linkDown => [.ldErrFatalDetect]
  | .suspendEnter => [.m3Enter]
  | .resume => [.m3Exit]
  | _ => []

/-- What one event can do to the state. -/
inductive Moves (a : PmState) (e : Event) : PmState → Prop where
  | stay : Moves a e a
  | forced {b} : forced e = some b → Moves a e b
  | arrow {b} : b ∈ wanted e → documented a b = true → Moves a e b

theorem tryset_moves {a b : PmState} {e : Event} (he : b ∈ wanted e) :
    ∃ u, trysetPmState a.toNat b.toNat = u.toNat ∧ Moves a e u := by
  rw [trysetPmState_eq]
  by_cases hdoc : documented a b
  · exact ⟨b, if_pos hdoc, .arrow he hdoc⟩
  · exact ⟨a, if_neg hdoc, .stay⟩

@[simp] theorem assertDevWake_pmState (c : Cntrl) : (assertDevWake c).pmState = c.pmState := by
  unfold assertDevWake
  split <;> rfl

@[simp] theorem assertDevWake_devWake (c : Cntrl) : (assertDevWake c).devWake = c.devWake := by
  unfold assertDevWake
  split <;> rfl

theorem next_moves {c : Cntrl} {a : PmState} (hc : c.pmState = a.toNat) (e : Event) :
    ∃ b, (next c e).pmState = b.toNat ∧ Moves a e b := by
  have asks : ∀ b, b ∈ wanted e →
      ∃ u, trysetPmState c.pmState b.toNat = u.toNat ∧ Moves a e u := fun b hb => by
    rw [hc]
    exact tryset_moves hb
  cases e with
  | ready => exact asks .por (by decide)
  | m0 => exact asks .m0 (by decide)
  | m1 =>
    have hstate : (next c .m1).pmState = trysetPmState c.pmState (PmState.toNat .m2) := by
      simp only [next, pmM1Transition, deassertDevWake]
      split
      · split <;> simp
      · rfl
    rw [hstate]
    exact asks .m2 (by decide)
  | m3 => exact asks .m3 (by decide)
  | sysErr => exact asks .sysErrDetect (by decide)
  | disableBegin d =>
    have hstate : (next c (.disableBegin d)).pmState = trysetPmState c.pmState d.state.toNat := by
      simp only [next, pmDisableBegin]
      split <;> rfl
    rw [hstate]
    exact asks d.state (by simp [wanted])
  | disableEnd edl d =>
    cases d with
    | sysErr =>
      have hstate : (next c (.disableEnd edl .sysErr)).pmState =
          trysetPmState c.pmState (PmState.toNat .por) := by
        cases edl <;> rfl
      rw [hstate]
      exact asks .por (by simp [wanted])
    | shutdown => exact asks .disable (by simp [wanted])
  | linkDown => exact asks .ldErrFatalDetect (by decide)
  | panic => exact ⟨.ldErrFatalDetect, rfl, .forced rfl⟩
  | powerUpDisable => exact ⟨.disable, rfl, .forced rfl⟩
  | powerUpPor => exact ⟨.por, rfl, .forced rfl⟩
  | suspendCheck =>
    refine ⟨a, ?_, .stay⟩
    rw [← hc]
    simp only [next, pmSuspendCheck]
    split
    · rfl
    · split
      · rfl
      · split <;> simp
  | suspendEnter =>
    by_cases hbusy : 1 < c.devWake
    · refine ⟨a, ?_, .stay⟩
      rw [← hc, next, pmSuspendEnter, if_pos hbusy, deassertDevWake]
    · have hstate : (next c .suspendEnter).pmState =
          trysetPmState c.pmState (PmState.toNat .m3Enter) := by
        rw [next, pmSuspendEnter, if_neg hbusy]
        rfl
      rw [hstate]
      exact asks .m3Enter (by decide)
  | resume =>
    simp only [next, pmResume]
    split
    · exact ⟨a, hc, .stay⟩
    · split
      · exact ⟨a, hc, .stay⟩
      · split
        · exact asks .m3Exit (by decide)
        · simpa using asks .m3Exit (by decide)
  | wakeGet => exact ⟨a, by simpa [next] using hc, .stay⟩
  | wakePut => exact ⟨a, hc, .stay⟩

/-- The firmware download error is a state that no event asks for. -/
theorem Moves.ne_fwDlErr {a b : PmState} {e : Event} (h : Moves a e b) (ha : a ≠ .fwDlErr) :
    b ≠ .fwDlErr := by
  cases h with
  | stay => exact ha
  | forced hf =>
    rintro rfl
    cases e <;> cases hf
  | arrow hw =>
    rintro rfl
    revert hw
    cases e with
    | disableBegin d | disableEnd _ d => cases d <;> simp [wanted, Disable.state]
    | _ => decide

/-- Only an event of the device leads to M0, and the doorbells are rung behind it. -/
theorem Moves.to_m0 {a : PmState} {e : Event} (h : Moves a e .m0) : a = .m0 ∨ e = .m0 := by
  cases h with
  | stay => exact .inl rfl
  | forced hf => cases e <;> cases hf
  | arrow hw =>
    right
    revert hw
    cases e with
    | disableBegin d | disableEnd _ d => cases d <;> simp [wanted, Disable.state]
    | _ => decide

/-! ### Runs -/

@[simp] theorem next_devWake (c : Cntrl) (e : Event) : (next c e).devWake = c.devWake := by
  cases e with
  | m1 =>
    simp only [next, pmM1Transition, deassertDevWake]
    split
    · split <;> simp
    · rfl
  | disableBegin d =>
    simp only [next, pmDisableBegin]
    split <;> rfl
  | disableEnd edl d => cases d <;> cases edl <;> rfl
  | suspendCheck =>
    simp only [next, pmSuspendCheck]
    split
    · rfl
    · split
      · rfl
      · split <;> simp
  | suspendEnter =>
    simp only [next, pmSuspendEnter, deassertDevWake]
    split <;> rfl
  | resume =>
    simp only [next, pmResume]
    split
    · rfl
    · split
      · rfl
      · split
        · rfl
        · simp
  | wakeGet => simp [next]
  | _ => rfl

/-- One bit is set, it is not the one of a failed download, and no wake is counted. -/
def Regular (c : Cntrl) : Prop :=
  (∃ a : PmState, c.pmState = a.toNat ∧ a ≠ .fwDlErr) ∧ c.devWake = 0

theorem step_regular {c u : Cntrl} {e : Event} (h : Regular c) (hs : step c e = some u) :
    Regular u := by
  obtain ⟨⟨a, hc, ha⟩, hwake⟩ := h
  cases hs
  obtain ⟨b, hb, hmoves⟩ := next_moves hc e
  exact ⟨⟨b, hb, hmoves.ne_fwDlErr ha⟩, (next_devWake c e).trans hwake⟩

theorem start_regular : Regular start := ⟨⟨.disable, rfl, by decide⟩, rfl⟩

/-- In every run: the state is one of the table, so that the guards of `mhi_tryset_pm_state` pass;
it moves along the documented arrows only, apart from the power-up and the panic, and to M0 only
on the device's word; and a suspend is never refused as busy, whatever is being transferred. -/
theorem pm_state_documented {es : List Event} {c : Cntrl} (h : run step es start = some c) :
    ∃ a : PmState, c.pmState = a.toNat ∧ a ≠ .fwDlErr ∧
      (mhiStateTransitions[findLastBit c.pmState]?).map Prod.fst = some c.pmState ∧
      (∀ e, ∃ b, (next c e).pmState = b.toNat ∧ Moves a e b ∧
        (b = .m0 → a = .m0 ∨ e = .m0)) ∧
      (pmSuspendCheck c).1 ≠ -eBusy ∧ (pmSuspendEnter c).1 ≠ -eBusy := by
  obtain ⟨⟨a, hc, ha⟩, hwake⟩ := run_invariant (fun _ _ _ => step_regular) start_regular h
  refine ⟨a, hc, ha, ?_, fun e => ?_, ?_, ?_⟩
  · rw [hc]
    exact table_row a
  · obtain ⟨b, hb, hmoves⟩ := next_moves hc e
    refine ⟨b, hb, hmoves, ?_⟩
    rintro rfl
    exact hmoves.to_m0
  · rw [pmSuspendCheck, hwake]
    split
    · simp [eInval, eBusy]
    · split <;> simp [eIo, eBusy]
  · rw [pmSuspendEnter, hwake, if_neg (by decide)]
    dsimp only
    split <;> simp [eIo, eBusy]

theorem pm_state_documented_m0 :
    ∃ c a : _, run step [.powerUpPor, .ready, .m0] start = some c ∧
      c.pmState = PmState.toNat a ∧ a ≠ .fwDlErr := by
  obtain ⟨a, hc, ha, -⟩ := pm_state_documented
    (show run step [.powerUpPor, .ready, .m0] start = some _ from rfl)
  exact ⟨_, a, rfl, hc, ha⟩

/-- The run comes by these states, in this order. -/
def Stations : List PmState → List Event → Cntrl → Cntrl → Prop
  | [], es, c, u => run step es c = some u
  | a :: as, es, c, u =>
    ∃ before after t, es = before ++ after ∧ run step before c = some t ∧ t.pmState = a.toNat ∧
      Stations as after t u

/-- States that are left, on the way elsewhere, through one state only. -/
theorem stations_cons {inside : PmState → Bool} {gate a b : PmState} {as : List PmState}
    {es : List Event} {c u : Cntrl}
    (hexit : ∀ x y e, e ∈ es → inside x = true → Moves x e y → inside y = true ∨ y = gate)
    (hc : c.pmState = a.toNat) (ha : inside a = true)
    (hu : u.pmState = b.toNat) (hb : inside b = false) (h : run step es c = some u)
    (hrest : ∀ after t, (∀ e ∈ after, e ∈ es) → t.pmState = gate.toNat →
      run step after t = some u → Stations as after t u) : Stations (gate :: as) es c u := by
  obtain ⟨before, after, t, rfl, hbefore, hgate, hafter⟩ :=
    run_passes (A := fun c => ∃ x, c.pmState = PmState.toNat x ∧ inside x = true)
      (G := fun c => c.pmState = gate.toNat)
      (fun s e t he hs ht => by
        obtain ⟨x, hx, hin⟩ := hs
        cases ht
        obtain ⟨y, hy, hmoves⟩ := next_moves hx e
        rcases hexit x y e he hin hmoves with hin' | rfl
        · exact .inl ⟨y, hy, hin'⟩
        · exact .inr hy)
      ⟨a, hc, ha⟩
      (fun hin => by
        obtain ⟨x, hx, hin⟩ := hin
        rw [toNat_injective (hx.symm.trans hu), hb] at hin
        contradiction)
      h
  exact ⟨before, after, t, rfl, hbefore, hgate,
    hrest after t (fun e he => List.mem_append_right before he) hgate hafter⟩

/-- The states from which an error is being recovered, up to the reset state. -/
def recovering : PmState → Bool
  | .disable | .fwDlErr | .sysErrDetect | .sysErrProcess | .shutdownProcess | .ldErrFatalDetect =>
    true
  | _ => false

theorem recovering_exit {x y : PmState} {e : Event} (hx : recovering x = true)
    (h : Moves x e y) : recovering y = true ∨ y = .por := by
  cases h with
  | stay => exact .inl hx
  | forced hf => cases e <;> cases hf <;> decide
  | arrow _ hdoc =>
    revert hx hdoc
    cases x <;> cases y <;> decide

/-- From an error the driver comes back to M0 only through the reset state. -/
theorem recovery_through_por {es : List Event} {c u : Cntrl} {a : PmState}
    (hc : c.pmState = a.toNat) (herr : pmInErrorState c.pmState = true)
    (hu : u.pmState = PmState.toNat .m0) (h : run step es c = some u) :
    Stations [.por] es c u := by
  have ha : recovering a = true := by
    rw [hc] at herr
    revert herr
    cases a <;> decide
  exact stations_cons (fun x y e _ => recovering_exit) hc ha hu rfl h fun _ _ _ _ => id

theorem recovery_through_por_sysErr :
    Stations [.por] [.disableBegin .sysErr, .disableEnd false .sysErr, .m0]
      ⟨PmState.toNat .sysErrDetect, .m0, 0, false⟩ ⟨PmState.toNat .m0, .m0, 0, false⟩ :=
  recovery_through_por (a := .sysErrDetect) rfl (by decide) rfl (by rfl)

/-- Where nothing is forced, the states are left along the arrows. -/
theorem exit_documented {es : List Event} (hforced : ∀ e ∈ es, forced e = none)
    (inside : PmState → Bool) (gate : PmState)
    (harrows : ∀ x y, inside x = true → documented x y = true → inside y = true ∨ y = gate) :
    ∀ x y e, e ∈ es → inside x = true → Moves x e y → inside y = true ∨ y = gate := by
  intro x y e he hx h
  cases h with
  | stay => exact .inl hx
  | forced hf =>
    rw [hforced e he] at hf
    cases hf
  | arrow _ hdoc => exact harrows x y hx hdoc

/-- With no power-up and no panic, a lost link is recovered from by a shutdown, to the disabled
state, and from there through the reset state. -/
theorem link_error_recovery {es : List Event} {c u : Cntrl}
    (hforced : ∀ e ∈ es, forced e = none) (hc : c.pmState = PmState.toNat .ldErrFatalDetect)
    (hu : u.pmState = PmState.toNat .m0) (h : run step es c = some u) :
    Stations [.shutdownProcess, .disable, .por] es c u := by
  refine stations_cons (exit_documented hforced (· = .ldErrFatalDetect) _ ?_) hc rfl hu rfl h
    fun after t hafter ht hrun => ?_
  · intro x y hx hdoc
    obtain rfl := of_decide_eq_true hx
    revert hdoc
    cases y <;> decide
  have hrest : ∀ e ∈ after, forced e = none := fun e he => hforced e (hafter e he)
  refine stations_cons (exit_documented hrest
    (fun x => x = .shutdownProcess ∨ x = .ldErrFatalDetect) _ ?_) ht rfl hu rfl hrun
    fun last v hlast hv hrun => ?_
  · intro x y hx hdoc
    revert hdoc
    rcases of_decide_eq_true hx with rfl | rfl <;> cases y <;> decide
  refine stations_cons (exit_documented (fun e he => hrest e (hlast e he)) (· = .disable) _ ?_)
    hv rfl hu rfl hrun fun _ _ _ _ => id
  intro x y hx hdoc
  obtain rfl := of_decide_eq_true hx
  revert hdoc
  cases y <;> decide

theorem link_error_recovery_shutdown :
    Stations [.shutdownProcess, .disable, .por]
      [.disableBegin .shutdown, .disableEnd false .shutdown, .ready, .m0]
      ⟨PmState.toNat .ldErrFatalDetect, .m3, 0, false⟩ ⟨PmState.toNat .m0, .m0, 0, false⟩ :=
  link_error_recovery (by decide) rfl rfl (by rfl)

end MhiPowerState
