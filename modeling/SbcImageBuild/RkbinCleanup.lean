import SbcImageBuild.RkbinTools

/-!
# The exit trap of a wrapping run

What `cleanup_uboot_build` makes of `rkbin/tools` when a first run exits, at every point of it.
-/
namespace RkbinCleanup

open Directory StepSystem RkbinTools

variable {h : Host} {orig d : Tools}

/-- The trap, its loop over `RKBIN_WRAPPED`, and the end of the script. -/
def exitRun (w : List Name) : List Event :=
  .trap :: (List.replicate w.length .cleanup ++ [.finish])

/-- The wrapping loop is not inside an iteration that has moved its tool. -/
def Registered : Phase → Prop
  | .moved .. => False
  | .writing .. => False
  | .executable .. => False
  | _ => True

/-- The facts about a run from the original directory that do not hold after a crash: nothing
had to be restored, and the tools still to be looked at are not recorded. -/
def FirstRun (orig : Tools) (s : State) : Prop :=
  match s.phase with
  | .idle => s.tools = orig
  | .started => s.tools = orig
  | .restoring todo => s.tools = orig ∧ todo = []
  | .wrapping todo w => ∀ x ∈ todo, x ∉ w
  | .moved bin todo w => bin ∉ w ∧ ∀ x ∈ todo, x ∉ w
  | .writing bin _ todo w => bin ∉ w ∧ ∀ x ∈ todo, x ∉ w
  | .executable bin todo w => bin ∉ w ∧ ∀ x ∈ todo, x ∉ w
  | .building _ => True
  | .cleaning .. => False
  | .finished _ => False

theorem expands_real_nil {names : List Name} (horig : ∀ x ∈ orig, ¬ EndsReal x)
    (he : Expands realPattern orig names) : names = [] := by
  apply List.eq_nil_iff_forall_not_mem.mpr
  intro x hx
  obtain ⟨⟨e, hlook⟩, hpat⟩ := he.mem.mp hx
  exact horig x (Finmap.mem_of_lookup_eq_some hlook) (of_decide_eq_true hpat).2

/-- Every step but a crash and the trap itself keeps the facts of a first run. -/
theorem step_preserves_firstRun {s t : State} {e : Event} (horig : ∀ x ∈ orig, ¬ EndsReal x)
    (hi : Invariant h orig s) (hf : FirstRun orig s) (hkill : e ≠ .kill) (htrap : e ≠ .trap)
    (he : step h s e = some t) : FirstRun orig t := by
  obtain ⟨d, p⟩ := s
  have hp := hi.phase
  unfold FirstRun at hf
  dsimp only at hf hp
  cases e with
  | start =>
    cases p <;> simp only [step, reduceCtorEq, Option.some.injEq] at he <;> subst he
    · exact hf
    · exact hf.elim
  | findQemu names =>
    cases p <;> simp only [step, reduceCtorEq] at he
    split at he
    · rename_i hexpands
      cases he
      dsimp only at hf
      subst hf
      exact ⟨rfl, expands_real_nil horig hexpands⟩
    · cases he
  | restore =>
    rcases p with _ | _ | (_ | ⟨y, todo⟩) | _ | _ | _ | _ | _ | _ | _ <;>
      simp only [step, reduceCtorEq, Option.some.injEq] at he
    cases hf.2
  | scan names =>
    rcases p with _ | _ | (_ | ⟨y, todo⟩) | _ | _ | _ | _ | _ | _ | _ <;>
      simp only [step, reduceCtorEq] at he
    split at he
    · cases he
      exact fun x _ => List.not_mem_nil
    · cases he
  | skip =>
    rcases p with _ | _ | _ | ⟨_ | ⟨x, todo⟩, w⟩ | _ | _ | _ | _ | _ | _ <;>
      simp only [step, reduceCtorEq] at he
    split at he
    · cases he
    · cases he
      exact (List.forall_mem_cons.mp hf).2
  | move =>
    rcases p with _ | _ | _ | ⟨_ | ⟨x, todo⟩, w⟩ | _ | _ | _ | _ | _ | _ <;>
      simp only [step, reduceCtorEq] at he
    split at he
    · cases he
      exact List.forall_mem_cons.mp hf
    · cases he
  | openShim =>
    cases p <;> simp only [step, reduceCtorEq, Option.some.injEq] at he
    subst he
    exact hf
  | writeShim written =>
    cases p <;> simp only [step, reduceCtorEq] at he
    split at he
    · cases he
      exact hf
    · cases he
  | chmod =>
    cases p <;> simp only [step, reduceCtorEq] at he
    split at he
    · cases he
      exact hf
    · cases he
  | record =>
    cases p <;> simp only [step, reduceCtorEq, Option.some.injEq] at he
    subst he
    intro x hx hmem
    rcases List.mem_append.mp hmem with hmem | hmem
    · exact hf.2 x hx hmem
    · exact hp.fresh (List.mem_singleton.mp hmem ▸ hx)
  | wrapped =>
    rcases p with _ | _ | _ | ⟨_ | ⟨x, todo⟩, w⟩ | _ | _ | _ | _ | _ | _ <;>
      simp only [step, reduceCtorEq, Option.some.injEq] at he
    subst he
    trivial
  | trap => exact absurd rfl htrap
  | cleanup =>
    rcases p with _ | _ | _ | _ | _ | _ | _ | _ | ⟨_ | ⟨x, todo⟩, complete⟩ | _ <;>
      simp only [step, reduceCtorEq, Option.some.injEq] at he
    exact hf.elim
  | finish =>
    rcases p with _ | _ | _ | _ | _ | _ | _ | _ | ⟨_ | ⟨x, todo⟩, complete⟩ | _ <;>
      simp only [step, reduceCtorEq, Option.some.injEq] at he
    exact hf.elim
  | kill => exact absurd rfl hkill

theorem firstRun_of_run {before : List Event} {s : State} (horig : ∀ x ∈ orig, ¬ EndsReal x)
    (hkill : .kill ∉ before) (htrap : .trap ∉ before)
    (hrun : run (step h) before ⟨orig, .idle⟩ = some s) :
    Invariant h orig s ∧ FirstRun orig s := by
  have initial : Invariant h orig ⟨orig, .idle⟩ ∧ FirstRun orig ⟨orig, .idle⟩ :=
    ⟨initial_invariant horig, rfl⟩
  refine run_invariant_mem (I := fun s => Invariant h orig s ∧ FirstRun orig s)
    (fun s e t he hs hstep => ?_) initial hrun
  refine ⟨step_preserves_invariant hs.1 hstep, ?_⟩
  exact step_preserves_firstRun horig hs.1 hs.2 (fun k => hkill (k ▸ he)) (fun k => htrap (k ▸ he))
    hstep

/-! ## The loop of the trap -/

/-- One round restores its tool and leaves the others alone. -/
theorem cleanup_one {x : Name} (hr : Recoverable h orig d) (hx : ¬ EndsReal x) :
    let d' := if isFile d (realName x) then rename d (realName x) x else d
    Recoverable h orig d' ∧
    (∀ P, OnlyAside h orig d (fun y => y = x ∨ P y) → OnlyAside h orig d' P) ∧
    ∀ y, ¬ EndsReal y → y ≠ x → Aside h orig d y → Aside h orig d' y := by
  intro d'
  by_cases hf : isFile d (realName x)
  · have ha : Aside h orig d x := (hr.plain x hx).resolve_left fun hi => by
      rw [isFile, hi.2] at hf
      cases hf
    have hd : d' = rename d (realName x) x := if_pos hf
    rw [hd]
    exact ⟨hr.touch touches_restore hx (.inl ha.restore), fun P ho => ho.restore hx ha,
      fun y hy hne hya => (touches_restore.aside hx hy hne).mpr hya⟩
  · have hd : d' = d := if_neg hf
    rw [hd]
    refine ⟨hr, fun P ho y hy hya => (ho y hy hya).resolve_left ?_, fun y _ _ hya => hya⟩
    rintro rfl
    exact hf hya.isFile_real

/-- The loop restores the recorded tools and no other one. -/
theorem cleanup_run {todo : List Name} {complete : Bool} (hr : Recoverable h orig d)
    (hplain : ∀ x ∈ todo, ¬ EndsReal x) :
    ∃ u, run (step h) (List.replicate todo.length .cleanup ++ [.finish])
        ⟨d, .cleaning todo complete⟩ = some u ∧
      Recoverable h orig u.tools ∧
      (OnlyAside h orig d (· ∈ todo) → OnlyAside h orig u.tools fun _ => False) ∧
      ∀ y, ¬ EndsReal y → y ∉ todo → Aside h orig d y → Aside h orig u.tools y := by
  induction todo generalizing d with
  | nil =>
    refine ⟨⟨d, .finished complete⟩, rfl, hr, fun ho => ?_, fun y _ _ hya => hya⟩
    exact ho.mono fun x hx => absurd hx List.not_mem_nil
  | cons x todo ih =>
    obtain ⟨hx, hrest⟩ := List.forall_mem_cons.mp hplain
    obtain ⟨hr', honly, hothers⟩ := cleanup_one hr hx
    obtain ⟨u, hu, hru, hou, hau⟩ := ih hr' hrest
    refine ⟨u, ?_, hru, fun ho => hou (honly _ ?_), fun y hy hnot hya => ?_⟩
    · rw [List.length_cons, List.replicate_succ, List.cons_append, run_cons]
      exact ⟨_, rfl, hu⟩
    · exact ho.mono fun y hy => List.mem_cons.mp hy
    · obtain ⟨hne, hmem⟩ := not_or.mp (List.mem_cons.not.mp hnot)
      exact hau y hy hmem (hothers y hy hne hya)

/-- When the trap runs, the recorded tools are the ones that wait aside. -/
theorem onlyAside_of_registered {s : State} {w : List Name} {complete : Bool}
    (horig : ∀ x ∈ orig, ¬ EndsReal x) (hi : Invariant h orig s) (hf : FirstRun orig s)
    (ht : trapped s.phase = some (w, complete)) (hreg : Registered s.phase) :
    OnlyAside h orig s.tools (· ∈ w) := by
  have untouched (hd : s.tools = orig) : OnlyAside h orig s.tools (· ∈ w) := by
    intro x hx ha
    have hi : Intact orig orig x := ⟨rfl, Finmap.lookup_eq_none.mpr fun hm =>
      horig _ hm (endsReal_realName x)⟩
    exact absurd (hd ▸ hi) ha.not_intact
  obtain ⟨d, p⟩ := s
  have hp := hi.phase
  unfold FirstRun at hf
  cases p <;> simp only [trapped, Option.some.injEq, Prod.mk.injEq, reduceCtorEq] at ht
  case started => exact untouched hf
  case restoring => exact untouched hf.1
  case wrapping => exact ht.1 ▸ hp.2
  case moved | writing | executable => exact hreg.elim
  case building => exact ht.1 ▸ hp.2

/-- Inside an iteration the tool that was moved is not recorded. -/
theorem aside_of_unregistered {s : State} {w : List Name} {complete : Bool}
    (hi : Invariant h orig s) (hf : FirstRun orig s)
    (ht : trapped s.phase = some (w, complete)) (hreg : ¬ Registered s.phase) :
    ∃ bin, ¬ EndsReal bin ∧ bin ∉ w ∧ Aside h orig s.tools bin := by
  obtain ⟨d, p⟩ := s
  have hp := hi.phase
  unfold FirstRun at hf
  cases p <;> simp only [trapped, Option.some.injEq, Prod.mk.injEq, reduceCtorEq] at ht
  case started | restoring | wrapping | building => exact absurd trivial hreg
  case moved bin _ _ | writing bin _ _ _ | executable bin _ _ =>
    exact ⟨bin, hp.plain, ht.1 ▸ hf.1, hp.aside⟩

/-- However a first run exits, the trap ends, and it leaves the original directory exactly when
the run was not between moving a tool and recording it. -/
theorem exit_restores_iff (h : Host) {orig : Tools} (horig : ∀ x ∈ orig, ¬ EndsReal x)
    {before : List Event} {s : State} (hkill : .kill ∉ before) (htrap : .trap ∉ before)
    (hrun : run (step h) before ⟨orig, .idle⟩ = some s) {w : List Name} {complete : Bool}
    (ht : trapped s.phase = some (w, complete)) :
    ∃ u, run (step h) (exitRun w) s = some u ∧ (u.tools = orig ↔ Registered s.phase) := by
  obtain ⟨hi, hf⟩ := firstRun_of_run horig hkill htrap hrun
  have hplain := (trap_phase hi.phase ht).1
  obtain ⟨u, hu, hru, hou, hau⟩ := cleanup_run hi.recoverable hplain
  refine ⟨u, ?_, fun heq => ?_, fun hreg => ?_⟩
  · have hstep : step h s .trap = some ⟨s.tools, .cleaning w complete⟩ := by
      simp only [step, ht]
    exact run_cons.mpr ⟨_, hstep, hu⟩
  · by_contra hreg
    obtain ⟨bin, hbin, hnot, ha⟩ := aside_of_unregistered hi hf ht hreg
    have hkept := (hau bin hbin hnot ha).isFile_real
    have hnone : orig.lookup (realName bin) = none :=
      Finmap.lookup_eq_none.mpr fun hm => horig _ hm (endsReal_realName bin)
    rw [heq, isFile, hnone] at hkept
    cases hkept
  · exact hru.eq_of_none_aside horig (hou (onlyAside_of_registered horig hi hf ht hreg))

/-- One tool and a text file. -/
def sampleHost : Host :=
  ⟨fun b => b.take 4 = [0x7F, 0x45, 0x4C, 0x46], "/bin/qemu".toList, "t".toList⟩

def sampleTools : Tools :=
  Finmap.insert "boot_merger".toList (.file ⟨[0x7F, 0x45, 0x4C, 0x46, 2], true⟩)
    (Finmap.singleton "README".toList (.file ⟨[0x41], false⟩))

theorem sampleTools_plain : ∀ x ∈ sampleTools, ¬ EndsReal x := by
  intro x hx
  rcases Finmap.mem_insert.mp hx with rfl | hx
  · decide
  · rw [(Finmap.mem_singleton _ _ _).mp hx]
    decide

def wrapEvents : List Event :=
  [.start, .findQemu [], .scan ["boot_merger".toList, "README".toList], .move, .openShim,
   .writeShim 80, .chmod, .record]

theorem exit_restores_wrapped :
    ∃ s, run (step sampleHost) wrapEvents ⟨sampleTools, .idle⟩ = some s ∧
    ∃ u, run (step sampleHost) (exitRun ["boot_merger".toList]) s = some u ∧
      u.tools = sampleTools := by
  have hrun : run (step sampleHost) wrapEvents ⟨sampleTools, .idle⟩ =
      some ⟨putFile (rename sampleTools "boot_merger".toList "boot_merger.real".toList)
        "boot_merger".toList (shim sampleHost "boot_merger".toList) true,
        .wrapping ["README".toList] ["boot_merger".toList]⟩ := by decide +kernel
  obtain ⟨u, hu, hiff⟩ := exit_restores_iff sampleHost sampleTools_plain (by decide) (by decide)
    hrun rfl
  exact ⟨_, hrun, u, hu, hiff.mpr trivial⟩

/-- The disk is full when the shim is opened: the trap runs, and the tool stays under its backup
name. -/
theorem exit_leaves_backup :
    ∃ s, run (step sampleHost) (wrapEvents.take 4) ⟨sampleTools, .idle⟩ = some s ∧
    ∃ w complete, trapped s.phase = some (w, complete) ∧
    ∃ u, run (step sampleHost) (exitRun w) s = some u ∧ u.tools ≠ sampleTools ∧
      u.tools.lookup "boot_merger".toList = none := by
  let d := rename sampleTools "boot_merger".toList "boot_merger.real".toList
  refine ⟨⟨d, .moved "boot_merger".toList ["README".toList] []⟩, by decide +kernel, [], false, rfl,
    ⟨d, .finished false⟩, rfl, ?_, ?_⟩
  · decide +kernel
  · decide +kernel

end RkbinCleanup
