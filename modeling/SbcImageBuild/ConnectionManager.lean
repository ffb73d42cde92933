import SbcImageBuild.Foundation.StepSystem
import Mathlib.Data.Finset.Sort

/-!
# The connection manager of the modem

`rm500q_connect` and `rm500q_disconnect` command by command, on a pid file and the processes of a
system on which other programs start and exit between any two commands.
-/
namespace ConnectionManager

open StepSystem

/-- The next command of the call that is under way. -/
inductive Point where
  | idle
  | available
  | checkConnect
  | detect
  | start
  | truncate (pid : ℕ)
  | writePid (pid : ℕ)
  | wait (pid waited : ℕ)
  | address (pid waited : ℕ)
  | checkDisconnect
  | readPid
  | search
  | interrupt (pid : ℕ)
  | waitExit (pid waited : ℕ)
  | kill (pid : ℕ)
  | remove
  deriving DecidableEq

/-- The processes that run `quectel-CM` and the other ones, and the pid file, which may be empty. -/
structure State where
  instances : Finset ℕ
  others : Finset ℕ
  pidFile : Option (Option ℕ)
  point : Point
  deriving DecidableEq

/-- A call, its next command (which may be a test with an answer from outside, or the start of a
process with a free id), its end from outside, and what the rest of the system does. -/
inductive Event where
  | connect
  | disconnect
  | next
  | answer (yes : Bool)
  | spawn (pid : ℕ)
  | abort
  | exits (pid : ℕ)
  | startsInstance (pid : ℕ)
  | startsOther (pid : ℕ)

/-- `kill -0` succeeds. -/
def State.Alive (s : State) (pid : ℕ) : Prop := pid ∈ s.instances ∨ pid ∈ s.others

instance (s : State) (pid : ℕ) : Decidable (s.Alive pid) := inferInstanceAs (Decidable (_ ∨ _))

def State.filePid (s : State) : Option ℕ := s.pidFile.join

/-- `pgrep -x` -/
def State.pgrep (s : State) : List ℕ := s.instances.sort

/-- `rm500q_cm_running` -/
def cmRunning (s : State) : Bool :=
  match s.pidFile with
  | some (some pid) => s.Alive pid
  | some none => false
  | none => s.pgrep ≠ []

/-- The effect of a command without an answer, and the command behind it. -/
def command (s : State) : Option State :=
  match s.point with
  | .checkConnect => some { s with point := if cmRunning s then .idle else .detect }
  | .truncate pid => some { s with pidFile := some none, point := .writePid pid }
  | .writePid pid => some { s with pidFile := some (some pid), point := .wait pid 0 }
  | .wait pid waited =>
    if 30 ≤ waited then some { s with point := .idle }
    else if s.Alive pid then some { s with point := .address pid waited }
    else some { s with pidFile := none, point := .idle }
  | .checkDisconnect => some { s with point := if cmRunning s then .readPid else .idle }
  | .readPid =>
    match s.filePid with
    | some pid => some { s with point := .interrupt pid }
    | none => some { s with point := .search }
  | .search =>
    match s.pgrep with
    | pid :: _ => some { s with point := .interrupt pid }
    | [] => some { s with point := .remove }
  | .interrupt pid => some { s with point := .waitExit pid 0 }
  | .waitExit pid waited =>
    if waited < 10 ∧ s.Alive pid then some { s with point := .waitExit pid (waited + 1) }
    else some { s with point := .kill pid }
  | .kill pid =>
    some ⟨s.instances.erase pid, s.others.erase pid, s.pidFile, .remove⟩
  | .remove => some { s with pidFile := none, point := .idle }
  | _ => none

/-- The command behind `rm500q_cm_available`, `rm500q_detect` or the look at the interface. -/
def answered (yes : Bool) : Point → Option Point
  | .available => some (if yes then .checkConnect else .idle)
  | .detect => some (if yes then .start else .idle)
  | .address pid waited => some (if yes then .idle else .wait pid (waited + 1))
  | _ => none

def step (s : State) : Event → Option State
  | .connect => if s.point = .idle then some { s with point := .available } else none
  | .disconnect => if s.point = .idle then some { s with point := .checkDisconnect } else none
  | .next => command s
  | .answer yes => (answered yes s.point).map fun p => { s with point := p }
  | .spawn pid =>
    if s.point = .start ∧ ¬ s.Alive pid then
      some { s with instances := insert pid s.instances, point := .truncate pid }
    else none
  | .abort => some { s with point := .idle }
  | .exits pid => some ⟨s.instances.erase pid, s.others.erase pid, s.pidFile, s.point⟩
  | .startsInstance pid =>
    if s.Alive pid then none else some { s with instances := insert pid s.instances }
  | .startsOther pid =>
    if s.Alive pid then none else some { s with others := insert pid s.others }

/-- After the start of the system. -/
def initial (others : Finset ℕ) : State := ⟨∅, others, none, .idle⟩

/-- The next command sends a signal. -/
def State.Signals (s : State) (pid : ℕ) : Prop := s.point = .interrupt pid ∨ s.point = .kill pid

/-- No signal goes to another program, and no second instance is started. -/
structure Safe (s : State) : Prop where
  signals : ∀ pid, s.Signals pid → pid ∉ s.others
  start : s.point = .start → s.instances = ∅

/-- There is a pid file, but no process for it. -/
def State.Stale (s : State) : Prop := s.pidFile.isSome ∧ ∀ pid ∈ s.filePid, ¬ s.Alive pid

/-- The call under way has still a signal to send. -/
def State.Targets (s : State) (pid : ℕ) : Prop :=
  match s.point with
  | .interrupt p => p = pid
  | .waitExit p _ => p = pid
  | .kill p => p = pid
  | _ => False

/-- The condition on a step: an instance beside a stale pid file is not overlooked, none comes
between the look and the start, and an id that was recorded is not used by another program when it
is read or as long as signals are sent to it. -/
def Careful (s : State) : Event → Prop
  | .next => (s.point = .checkConnect → s.Stale → s.instances = ∅) ∧
      (s.point = .readPid → ∀ pid ∈ s.filePid, pid ∉ s.others)
  | .startsInstance _ => s.point ≠ .detect ∧ s.point ≠ .start
  | .startsOther pid => ¬ s.Targets pid
  | _ => True

instance (s : State) : Decidable s.Stale := inferInstanceAs (Decidable (_ ∧ _))

instance (s : State) (pid : ℕ) : Decidable (s.Targets pid) := by
  unfold State.Targets
  split <;> infer_instance

instance (s : State) : DecidablePred (Careful s)
  | .next => inferInstanceAs (Decidable (_ ∧ _))
  | .startsInstance _ => inferInstanceAs (Decidable (_ ∧ _))
  | .startsOther pid => inferInstanceAs (Decidable (¬ s.Targets pid))
  | .connect | .disconnect | .answer _ | .spawn _ | .abort | .exits _ => .isTrue trivial

/-- No program is both; nobody is signalled wrongly, and before a start there is no instance. -/
structure Invariant (s : State) : Prop where
  disjoint : Disjoint s.instances s.others
  targets : ∀ pid, s.Targets pid → pid ∉ s.others
  start : s.point = .detect ∨ s.point = .start → s.instances = ∅

section Steps

variable {s t : State} {e : Event} {i o : Finset ℕ} {f : Option (Option ℕ)} {p : Point}

theorem Invariant.safe (h : Invariant s) : Safe s where
  signals := by
    rintro pid (hpoint | hpoint) <;> exact h.targets pid (by simp [State.Targets, hpoint])
  start hpoint := h.start (.inr hpoint)

theorem initial_invariant (others : Finset ℕ) : Invariant (initial others) where
  disjoint := Finset.disjoint_empty_left others
  targets _ h := h.elim
  start h := by rcases h with h | h <;> cases h

/-- A point without a signal and without a start. -/
def Point.Quiet : Point → Prop
  | .detect | .start | .interrupt _ | .waitExit _ _ | .kill _ => False
  | _ => True

theorem invariant_quiet (hd : Disjoint i o) (hp : p.Quiet) : Invariant ⟨i, o, f, p⟩ where
  disjoint := hd
  targets pid h := by
    cases p with
    | interrupt | waitExit | kill => exact hp.elim
    | _ => exact h.elim
  start h := by
    rcases h with rfl | rfl <;> exact hp.elim

/-- A point that signals one process. -/
theorem invariant_target {pid : ℕ} (hd : Disjoint i o) (hp : p ≠ .detect ∧ p ≠ .start)
    (ht : ∀ q, State.Targets ⟨i, o, f, p⟩ q → q = pid) (ho : pid ∉ o) :
    Invariant ⟨i, o, f, p⟩ where
  disjoint := hd
  targets q h := ht q h ▸ ho
  start h := h.elim (fun h => absurd h hp.1) (fun h => absurd h hp.2)

theorem mem_pgrep {pid : ℕ} : pid ∈ s.pgrep ↔ pid ∈ s.instances := Finset.mem_sort _

/-- Where the look finds nothing and no pid file is stale, there is no instance. -/
theorem instances_of_notRunning (hrun : cmRunning s = false) (hstale : s.Stale → s.instances = ∅) :
    s.instances = ∅ := by
  unfold cmRunning at hrun
  split at hrun
  · rename_i pid hfile
    refine hstale ⟨by simp [hfile], fun q hq => ?_⟩
    obtain rfl : pid = q := by simpa [State.filePid, hfile] using hq
    simpa using hrun
  · rename_i hfile
    exact hstale ⟨by simp [hfile], by simp [State.filePid, hfile]⟩
  · have hnil : s.pgrep = [] := by simpa using hrun
    refine Finset.eq_empty_of_forall_notMem fun pid hpid => ?_
    simpa [hnil] using mem_pgrep.mpr hpid

theorem mem_of_pgrep {pid : ℕ} {rest : List ℕ} (h : s.pgrep = pid :: rest) : pid ∈ s.instances :=
  mem_pgrep.mp (h ▸ List.mem_cons_self)

/-- The commands of a call keep the invariant. -/
theorem command_invariant (hi : Invariant s) (hc : Careful s .next) (h : command s = some t) :
    Invariant t := by
  obtain ⟨i, o, f, p⟩ := s
  have hd := hi.disjoint
  cases p with
  | checkConnect =>
    obtain rfl := Option.some.inj h
    cases hrun : cmRunning ⟨i, o, f, .checkConnect⟩ with
    | true => exact invariant_quiet hd trivial
    | false =>
      have hnone := instances_of_notRunning hrun (hc.1 rfl)
      exact ⟨hd, fun _ h => h.elim, fun _ => hnone⟩
  | truncate pid =>
    obtain rfl := Option.some.inj h
    exact invariant_quiet hd trivial
  | writePid pid =>
    obtain rfl := Option.some.inj h
    exact invariant_quiet hd trivial
  | wait pid waited =>
    simp only [command] at h
    split_ifs at h <;> obtain rfl := Option.some.inj h <;>
      exact invariant_quiet hd trivial
  | checkDisconnect =>
    obtain rfl := Option.some.inj h
    cases hrun : cmRunning ⟨i, o, f, .checkDisconnect⟩ <;>
      exact invariant_quiet hd trivial
  | readPid =>
    simp only [command] at h
    split at h <;> obtain rfl := Option.some.inj h
    · rename_i pid hpid
      exact invariant_target hd (by simp) (fun q hq => hq.symm) (hc.2 rfl pid hpid)
    · exact invariant_quiet hd trivial
  | search =>
    simp only [command] at h
    split at h <;> obtain rfl := Option.some.inj h
    · rename_i pid rest hpgrep
      have hpid := Finset.disjoint_left.mp hd (mem_of_pgrep hpgrep)
      exact invariant_target hd (by simp) (fun q hq => hq.symm) hpid
    · exact invariant_quiet hd trivial
  | interrupt pid =>
    obtain rfl := Option.some.inj h
    exact invariant_target hd (by simp) (fun q hq => hq.symm) (hi.targets pid rfl)
  | waitExit pid waited =>
    simp only [command] at h
    split_ifs at h <;> obtain rfl := Option.some.inj h <;>
      exact invariant_target hd (by simp) (fun q hq => hq.symm) (hi.targets pid rfl)
  | kill pid =>
    obtain rfl := Option.some.inj h
    have hd := hd.mono (Finset.erase_subset pid i) (Finset.erase_subset pid o)
    exact invariant_quiet hd trivial
  | remove =>
    obtain rfl := Option.some.inj h
    exact invariant_quiet hd trivial
  | _ => cases h

/-- A careful step keeps the invariant. -/
theorem step_invariant (hc : Careful s e) (hi : Invariant s) (h : step s e = some t) :
    Invariant t := by
  obtain ⟨i, o, f, p⟩ := s
  have hd := hi.disjoint
  cases e with
  | connect =>
    simp only [step] at h
    split_ifs at h
    obtain rfl := Option.some.inj h
    exact invariant_quiet hd trivial
  | disconnect =>
    simp only [step] at h
    split_ifs at h
    obtain rfl := Option.some.inj h
    exact invariant_quiet hd trivial
  | next => exact command_invariant hi hc h
  | answer yes =>
    obtain ⟨q, hq, rfl⟩ := Option.map_eq_some_iff.mp h
    cases p with
    | available =>
      obtain rfl := Option.some.inj hq
      cases yes <;> exact invariant_quiet hd trivial
    | detect =>
      obtain rfl := Option.some.inj hq
      exact ⟨hd, by cases yes <;> simp [State.Targets], fun _ => hi.start (.inl rfl)⟩
    | address pid waited =>
      obtain rfl := Option.some.inj hq
      cases yes <;> exact invariant_quiet hd trivial
    | _ => cases hq
  | spawn pid =>
    simp only [step] at h
    split_ifs at h with hfree
    obtain rfl := Option.some.inj h
    have hpid : pid ∉ o := fun hmem => hfree.2 (.inr hmem)
    exact invariant_quiet (Finset.disjoint_insert_left.mpr ⟨hpid, hd⟩) trivial
  | abort =>
    obtain rfl := Option.some.inj h
    exact invariant_quiet hd trivial
  | exits pid =>
    obtain rfl := Option.some.inj h
    exact {
      disjoint := hd.mono (Finset.erase_subset pid i) (Finset.erase_subset pid o)
      targets := fun q hq hmem => hi.targets q hq (Finset.mem_of_mem_erase hmem)
      start := fun hp => by
        have hnone : i = ∅ := hi.start hp
        simp [hnone] }
  | startsInstance pid =>
    simp only [step] at h
    split_ifs at h with hfree
    obtain rfl := Option.some.inj h
    have hpid : pid ∉ o := fun hmem => hfree (.inr hmem)
    exact {
      disjoint := Finset.disjoint_insert_left.mpr ⟨hpid, hd⟩
      targets := hi.targets
      start := fun hp => hp.elim (fun hp => absurd hp hc.1) fun hp => absurd hp hc.2 }
  | startsOther pid =>
    simp only [step] at h
    split_ifs at h with hfree
    obtain rfl := Option.some.inj h
    have hpid : pid ∉ i := fun hmem => hfree (.inl hmem)
    exact {
      disjoint := Finset.disjoint_insert_right.mpr ⟨hpid, hd⟩
      targets := fun q hq hmem => by
        rcases Finset.mem_insert.mp hmem with rfl | hmem
        · exact hc hq
        · exact hi.targets q hq hmem
      start := hi.start }

/-- The wait for a process that stays comes to its end. -/
theorem waitExit_kills {pid : ℕ} (ho : pid ∈ o) (hp : p = .kill pid ∨ ∃ n, p = .waitExit pid n) :
    ∃ es, run step es ⟨i, o, f, p⟩ = some ⟨i, o, f, .kill pid⟩ := by
  obtain rfl | ⟨n, rfl⟩ := hp
  · exact ⟨[], rfl⟩
  induction hk : 10 - n generalizing n with
  | zero =>
    refine ⟨[.next], run_cons.mpr ⟨_, ?_, rfl⟩⟩
    exact if_neg fun h => by omega
  | succ k ih =>
    obtain ⟨es, hes⟩ := ih (n + 1) (by omega)
    refine ⟨.next :: es, run_cons.mpr ⟨_, ?_, hes⟩⟩
    exact if_pos ⟨by omega, .inr ho⟩

theorem not_safe_start (hs : s.point = .start) (hi : s.instances ≠ ∅) : ¬ Safe s :=
  fun h => hi (h.start hs)

theorem not_safe_signals {pid : ℕ} (hs : s.Signals pid) (ho : pid ∈ s.others) : ¬ Safe s :=
  fun h => h.signals pid hs ho

/-- The condition is not too strong: behind a step that does not meet it, a wrong signal or a second
instance may follow. -/
theorem careless_violates (h : step s e = some t) (hc : ¬ Careful s e) :
    ∃ es u, run step es t = some u ∧ ¬ Safe u := by
  obtain ⟨i, o, f, p⟩ := s
  cases e with
  | next =>
    rcases not_and_or.mp hc with hstale | hread
    · push Not at hstale
      obtain ⟨rfl, hstale, hnone⟩ := hstale
      have hrun : cmRunning ⟨i, o, f, .checkConnect⟩ = false := by
        cases f with
        | none => simp [State.Stale] at hstale
        | some q =>
          cases q with
          | none => rfl
          | some pid => simpa [cmRunning] using hstale.2 pid rfl
      simp only [step, command, hrun, Option.some.injEq] at h
      subst h
      exact ⟨[.answer true], _, rfl, not_safe_start rfl hnone.ne_empty⟩
    · push Not at hread
      obtain ⟨rfl, pid, hpid, ho⟩ := hread
      have hread : step ⟨i, o, f, .readPid⟩ .next = some ⟨i, o, f, .interrupt pid⟩ := by
        simp only [step, command, Option.mem_def.mp hpid]
      obtain rfl := Option.some.inj (hread.symm.trans h)
      exact ⟨[], _, rfl, not_safe_signals (.inl rfl) ho⟩
  | startsInstance pid =>
    simp only [step] at h
    split_ifs at h with hfree
    obtain rfl := Option.some.inj h
    have hsome : insert pid i ≠ ∅ := Finset.insert_ne_empty pid i
    rcases not_and_or.mp hc with hp | hp <;> obtain rfl := not_not.mp hp
    · exact ⟨[.answer true], _, rfl, not_safe_start rfl hsome⟩
    · exact ⟨[], _, rfl, not_safe_start rfl hsome⟩
  | startsOther pid =>
    simp only [step] at h
    split_ifs at h with hfree
    obtain rfl := Option.some.inj h
    have ho : pid ∈ insert pid o := Finset.mem_insert_self pid o
    have htarget := not_not.mp hc
    cases p with
    | interrupt q =>
      obtain rfl : q = pid := htarget
      exact ⟨[], _, rfl, not_safe_signals (.inl rfl) ho⟩
    | waitExit q n =>
      obtain rfl : q = pid := htarget
      obtain ⟨es, hes⟩ := waitExit_kills (i := i) (f := f) ho (.inr ⟨n, rfl⟩)
      exact ⟨es, _, hes, not_safe_signals (.inr rfl) ho⟩
    | kill q =>
      obtain rfl : q = pid := htarget
      exact ⟨[], _, rfl, not_safe_signals (.inr rfl) ho⟩
    | _ => exact htarget.elim
  | _ => exact absurd trivial hc

end Steps

/-- In a run of careful steps no signal goes to another program and no second instance is
started. -/
theorem ownership_of_careful (others : Finset ℕ) (es : List Event) {s : State}
    (hc : Along step Careful es (initial others)) (h : run step es (initial others) = some s) :
    Safe s :=
  (run_along (fun _ _ _ hc hi he => step_invariant hc hi he) (initial_invariant others) hc h).safe

/-- A call that connects, and the start of one that disconnects, while an editor is started. -/
def session : List Event :=
  [.connect, .answer true, .next, .answer true, .spawn 700, .next, .next, .next, .answer true,
    .startsOther 800, .disconnect, .next, .next]

theorem ownership_session : Safe ⟨{700}, {800}, some (some 700), .interrupt 700⟩ :=
  ownership_of_careful ∅ session (by decide +kernel) (by decide +kernel)

/-- A call that connects, and then the exit of its instance. -/
def abandoned : List Event := session.take 9 ++ [.exits 700]

/-- The id in the pid file is used again; or another instance is started beside the pid file. -/
theorem ownership_lost :
    ¬ (∀ others es s, run step es (initial others) = some s →
        ∀ pid, s.Signals pid → pid ∉ s.others) ∧
      ¬ ∀ others es s, run step es (initial others) = some s →
        s.point = .start → s.instances = ∅ := by
  constructor
  · intro h
    have hrun : run step (abandoned ++ [.startsOther 700, .disconnect, .next, .next]) (initial ∅) =
        some ⟨∅, {700}, some (some 700), .interrupt 700⟩ := by decide +kernel
    exact h _ _ _ hrun 700 (.inl rfl) (Finset.mem_singleton_self 700)
  · intro h
    have hrun : run step (abandoned ++ [.startsInstance 800, .connect, .answer true, .next,
        .answer true]) (initial ∅) = some ⟨{800}, ∅, some (some 700), .start⟩ := by decide +kernel
    exact absurd (h _ _ _ hrun rfl) (by decide)

end ConnectionManager
