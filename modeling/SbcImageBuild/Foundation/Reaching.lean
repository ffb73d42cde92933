import SbcImageBuild.Foundation.FileCommands

/-!
# Where paths lead

Resolution in a tree to which nodes are added, paths in two parts, the names of a path, and the
directories that `mkdir -p` makes.
-/
namespace Reaching

open ShellText FileTree FileCommands

variable {α β γ δ : Type} {t u v : Files α}

/-- What exists stays as it is. -/
def Grows (t u : Files α) : Prop := ∀ l, t l ≠ none → u l = t l

theorem Grows.refl (t : Files α) : Grows t t := fun _ _ => rfl

theorem Grows.trans (h : Grows t u) (k : Grows u v) : Grows t v := fun l hl => by
  have hu := h l hl
  rw [k l (by rwa [hu]), hu]

theorem Grows.eq_some (h : Grows t u) {l : Loc} {n : Node α} (hn : t l = some n) :
    u l = some n := by
  rw [h l (by simp [hn]), hn]

theorem Grows.isDir (h : Grows t u) {l : Loc} (hl : isDir t l) : isDir u l := by
  obtain ⟨m, hm⟩ := isDir_iff.mp hl
  exact isDir_iff.mpr ⟨m, h.eq_some hm⟩

theorem remove_mono (h : Grows t u) (l : Loc) : Grows (remove t l) (remove u l) := by
  intro q hq
  have hnot : ¬ l <+: q := fun hpre => hq (remove_at hpre)
  rw [remove_other hnot] at hq ⊢
  rw [remove_other hnot]
  exact h q hq

theorem withDirs_grows (t : Files α) (cur : Loc) (cs : List Text) : Grows t (withDirs t cur cs) :=
  fun _ hl => if_neg fun h => hl h.1

section Walking

theorem walk_cons (links : ℕ) (cur : Loc) (c : Text) (cs : List Text) :
    walk t links cur (c :: cs) =
      if c = [] ∨ c = ['.'] then walk t links cur cs
      else if c = ['.', '.'] then walk t links cur.dropLast cs
      else match t (cur ++ [c]) with
        | none => if cs = [] then .absent cur c else .failed
        | some (.dir _) => walk t links (cur ++ [c]) cs
        | some (.file _ _) => if cs = [] then .found (cur ++ [c]) else .failed
        | some (.symlink target) =>
          match links with
          | 0 => .failed
          | links + 1 => walk t links (if isAbsolute target then [] else cur)
              (components target ++ cs) := by
  cases links with
  | zero => exact walkWith.eq_2 ..
  | succ links => exact walkWith.eq_2 ..

theorem walk_nil (links : ℕ) (cur : Loc) : walk t links cur [] = .found cur := by
  cases links <;> rfl

theorem walkWith_grows (h : Grows t u) {follow follow' : Loc → List Text → Resolved}
    (hf : ∀ cur cs l, follow cur cs = .found l → follow' cur cs = .found l) {cur : Loc}
    {cs : List Text} {l : Loc} (hw : walkWith follow t cur cs = .found l) :
    walkWith follow' u cur cs = .found l := by
  induction cs generalizing cur with
  | nil => exact hw
  | cons c cs ih =>
    rw [walkWith] at hw ⊢
    by_cases hstay : c = [] ∨ c = ['.']
    · rw [if_pos hstay] at hw ⊢
      exact ih hw
    rw [if_neg hstay] at hw ⊢
    by_cases hup : c = ['.', '.']
    · rw [if_pos hup] at hw ⊢
      exact ih hw
    rw [if_neg hup] at hw ⊢
    rcases hn : t (cur ++ [c]) with _ | (m | ⟨content, m⟩ | target)
    · simp only [hn] at hw
      split at hw <;> cases hw
    · rw [hn] at hw
      rw [h.eq_some hn]
      exact ih hw
    · rw [hn] at hw
      rw [h.eq_some hn]
      exact hw
    · rw [hn] at hw
      rw [h.eq_some hn]
      exact hf _ _ _ hw

/-- A path leads where it did once the tree has grown, however many more links it may follow. -/
theorem walk_grows (h : Grows t u) {a b : ℕ} (hab : a ≤ b) {cur : Loc} {cs : List Text} {l : Loc}
    (hw : walk t a cur cs = .found l) : walk u b cur cs = .found l := by
  induction a generalizing b cur cs l with
  | zero =>
    obtain ⟨follow, heq⟩ := walk_eq u b
    rw [heq]
    apply walkWith_grows h _ hw
    intro cur cs l hfail
    cases hfail
  | succ a ih =>
    obtain ⟨b, rfl⟩ : ∃ b', b = b' + 1 := ⟨b - 1, by omega⟩
    have hle : a ≤ b := by omega
    exact walkWith_grows h (fun _ _ _ => ih hle) hw

theorem reaches_grows (h : Grows t u) {m : Loc} {cs : List Text} {l : Loc}
    (hr : Reaches t m cs l) : Reaches u m cs l := by
  obtain ⟨links, hw⟩ := hr
  exact ⟨links, walk_grows h le_rfl hw⟩

theorem reaches_unique {cur : Loc} {cs : List Text} {l m : Loc} (hl : Reaches t cur cs l)
    (hm : Reaches t cur cs m) : l = m := by
  obtain ⟨a, ha⟩ := hl
  obtain ⟨b, hb⟩ := hm
  have ha' := walk_grows (.refl t) (le_max_left a b) ha
  have hb' := walk_grows (.refl t) (le_max_right a b) hb
  exact Resolved.found.inj (ha'.symm.trans hb')

theorem walkWith_through {m : Loc} (hm : isDir t m) {follow : Loc → List Text → Resolved}
    (hf : ∀ cur ps, follow cur ps = .found m →
      ∃ j, ∀ b cs, walk t (j + b) cur (ps ++ cs) = walk t b m cs)
    {cur : Loc} {ps : List Text} (hw : walkWith follow t cur ps = .found m) :
    ∃ j, ∀ b cs, walk t (j + b) cur (ps ++ cs) = walk t b m cs := by
  induction ps generalizing cur with
  | nil =>
    cases hw
    exact ⟨0, fun b cs => by rw [Nat.zero_add, List.nil_append]⟩
  | cons p ps ih =>
    simp only [List.cons_append, walk_cons]
    rw [walkWith] at hw
    by_cases hstay : p = [] ∨ p = ['.']
    · simp only [if_pos hstay] at hw ⊢
      exact ih hw
    simp only [if_neg hstay] at hw ⊢
    by_cases hup : p = ['.', '.']
    · simp only [if_pos hup] at hw ⊢
      exact ih hw
    simp only [if_neg hup] at hw ⊢
    rcases hn : t (cur ++ [p]) with _ | (k | ⟨content, k⟩ | target)
    · simp only [hn] at hw
      split at hw <;> cases hw
    · simp only [hn] at hw ⊢
      exact ih hw
    · simp only [hn] at hw
      split at hw
      · cases hw
        simp [isDir, hn, Node.isDir] at hm
      · cases hw
    · rw [hn] at hw
      obtain ⟨j, hj⟩ := hf _ _ hw
      refine ⟨j + 1, fun b cs => ?_⟩
      have hlinks : j + 1 + b = j + b + 1 := by omega
      rw [hlinks, ← hj b cs, List.append_assoc]

/-- Once its front has led to a directory, a path goes on from there; the links of the front come
on top of those of the rest. -/
theorem walk_through {a : ℕ} {cur : Loc} {ps : List Text} {m : Loc} (hm : isDir t m)
    (hw : walk t a cur ps = .found m) :
    ∃ j, ∀ b cs, walk t (j + b) cur (ps ++ cs) = walk t b m cs := by
  induction a generalizing cur ps with
  | zero =>
    apply walkWith_through hm _ hw
    intro cur ps hfail
    cases hfail
  | succ a ih => exact walkWith_through hm (fun _ _ => ih) hw

theorem reaches_append {cur : Loc} {ps cs : List Text} {m l : Loc} (hm : isDir t m)
    (hp : Reaches t cur ps m) : Reaches t cur (ps ++ cs) l ↔ Reaches t m cs l := by
  constructor
  · rintro ⟨a, ha⟩
    obtain ⟨m', hm', hrest⟩ := walk_append ha
    obtain rfl := reaches_unique hp ⟨a, hm'⟩
    exact hrest
  · rintro ⟨b, hb⟩
    obtain ⟨a, ha⟩ := hp
    obtain ⟨j, hj⟩ := walk_through hm ha
    exact ⟨j + b, (hj b cs).trans hb⟩

theorem reaches_of_directoryAt {path : List Text} {d : Loc} (h : directoryAt t path = some d) :
    Reaches t [] path d ∧ isDir t d := by
  obtain ⟨hr, hd⟩ := directoryAt_eq_some.mp h
  exact ⟨⟨maxLinks, hr⟩, hd⟩

theorem directoryAt_grows (h : Grows t u) {path : List Text} {d : Loc}
    (hd : directoryAt t path = some d) : directoryAt u path = some d := by
  obtain ⟨hr, hdir⟩ := directoryAt_eq_some.mp hd
  exact directoryAt_eq_some.mpr ⟨walk_grows h le_rfl hr, h.isDir hdir⟩

end Walking

section Names

/-- The names of a path, without what only stays where it is. -/
def names (cs : List Text) : List Text := cs.filter fun c => c ≠ [] ∧ c ≠ ['.']

theorem names_append (ps cs : List Text) : names (ps ++ cs) = names ps ++ names cs :=
  List.filter_append _ _

theorem names_cons_stay {c : Text} (h : c = [] ∨ c = ['.']) (cs : List Text) :
    names (c :: cs) = names cs :=
  List.filter_cons_of_neg (by rcases h with rfl | rfl <;> simp)

theorem names_cons_name {c : Text} (h : ¬ (c = [] ∨ c = ['.'])) (cs : List Text) :
    names (c :: cs) = c :: names cs :=
  List.filter_cons_of_pos (by simpa using h)

theorem names_proper {cs : List Text} (hup : ['.', '.'] ∉ cs) (hslash : ∀ c ∈ cs, '/' ∉ c) :
    ∀ n ∈ names cs, Proper n := by
  intro n hn
  obtain ⟨hmem, hname⟩ := List.mem_filter.mp hn
  simp only [decide_eq_true_eq] at hname
  exact ⟨hname.1, hname.2, fun heq => hup (heq ▸ hmem), hslash n hmem⟩

theorem names_rdropWhile (cs : List Text) : names (cs.rdropWhile (· = [])) = names cs := by
  induction cs using List.reverseRecOn with
  | nil => rfl
  | append_singleton cs c ih =>
    by_cases hc : c = []
    · rw [List.rdropWhile_concat_pos _ _ _ (by simpa using hc), ih, names_append, hc]
      simp [names]
    · rw [List.rdropWhile_concat_neg _ _ _ (by simpa using hc)]

theorem mkdirP_names (t : Files α) (cur : Loc) (cs : List Text) :
    mkdirP t cur cs = mkdirP t cur (names cs) := by
  induction cs generalizing t cur with
  | nil => rfl
  | cons c cs ih =>
    by_cases hstay : c = [] ∨ c = ['.']
    · rw [names_cons_stay hstay, mkdirP, if_pos hstay]
      exact ih t cur
    · rw [names_cons_name hstay, mkdirP, mkdirP, if_neg hstay, if_neg hstay]
      simp only [ih]

theorem walkWith_names {follow : Loc → List Text → Resolved} {cur : Loc} {cs : List Text}
    (hup : ['.', '.'] ∉ cs) (hd : ∀ q, q <+: names cs → isDir t (cur ++ q)) :
    walkWith follow t cur cs = .found (cur ++ names cs) := by
  induction cs generalizing cur with
  | nil => rw [walkWith, names, List.filter_nil, List.append_nil]
  | cons c cs ih =>
    rw [List.mem_cons, not_or] at hup
    rw [walkWith]
    by_cases hstay : c = [] ∨ c = ['.']
    · rw [names_cons_stay hstay] at hd ⊢
      rw [if_pos hstay]
      exact ih hup.2 hd
    · rw [names_cons_name hstay] at hd ⊢
      obtain ⟨m, hm⟩ := isDir_iff.mp (hd [c] (by simp))
      have hnext : ∀ q, q <+: names cs → isDir t (cur ++ [c] ++ q) := by
        intro q hq
        rw [List.append_assoc, List.singleton_append]
        exact hd (c :: q) (List.cons_prefix_cons.mpr ⟨rfl, hq⟩)
      rw [if_neg hstay, if_neg (Ne.symm hup.1), hm]
      dsimp only
      rw [ih hup.2 hnext, List.append_assoc, List.singleton_append]

/-- A path through directories leads to where its names spell. -/
theorem resolve_names {cur : Loc} {cs : List Text} (hup : ['.', '.'] ∉ cs)
    (hd : ∀ q, q <+: names cs → isDir t (cur ++ q)) :
    resolve t cur cs = .found (cur ++ names cs) := by
  obtain ⟨follow, heq⟩ := walk_eq t maxLinks
  rw [resolve, heq]
  exact walkWith_names hup hd

end Names

section Making

theorem mkdirP_grows (t : Files α) (cur : Loc) (cs : List Text) :
    Grows t (mkdirP t cur cs).tree := fun _ hl => mkdirP_keeps hl

theorem mkdirP_append {cur : Loc} {ps : List Text} (hp : ∀ p ∈ ps, Proper p) (cs : List Text) :
    mkdirP t cur (ps ++ cs) = (mkdirP t cur ps).andThen fun d t => mkdirP t d cs := by
  induction ps generalizing t cur with
  | nil => rfl
  | cons p ps ih =>
    have hproper := hp p List.mem_cons_self
    have hrest : ∀ q ∈ ps, Proper q := fun q hq => hp q (List.mem_cons_of_mem p hq)
    rw [List.cons_append, mkdirP_step hproper, mkdirP_step hproper]
    by_cases hnone : t (cur ++ [p]) = none
    · rw [if_pos hnone, if_pos hnone, andThen_assoc]
      congr 1
      funext _ t
      exact ih hrest
    · rw [if_neg hnone, if_neg hnone]
      rcases resolve t cur [p] with l | _ | _
      · dsimp only
        split
        · exact ih hrest
        · rfl
      · rfl
      · rfl

/-- What `mkdir -p` reports is where the path leads from then on. -/
theorem mkdirP_reaches {cur : Loc} {cs : List Text} (hp : ∀ c ∈ cs, Proper c) {d : Loc}
    (hr : (mkdirP t cur cs).result = some d) : Reaches (mkdirP t cur cs).tree cur cs d := by
  induction cs generalizing t cur with
  | nil =>
    cases hr
    exact ⟨0, rfl⟩
  | cons c cs ih =>
    have hproper := hp c List.mem_cons_self
    have hrest : ∀ q ∈ cs, Proper q := fun q hq => hp q (List.mem_cons_of_mem c hq)
    rw [mkdirP_step hproper] at hr ⊢
    by_cases hnone : t (cur ++ [c]) = none
    · rw [if_pos hnone, write_andThen] at hr ⊢
      have hmade : isDir (mkdirP (put t (cur ++ [c]) (.dir 0o755)) (cur ++ [c]) cs).tree
          (cur ++ [c]) :=
        (mkdirP_grows _ _ _).isDir (isDir_put_self _ _ _)
      obtain ⟨links, hw⟩ := ih hrest hr
      obtain ⟨follow, heq⟩ := walk_eq
        (mkdirP (put t (cur ++ [c]) (.dir 0o755)) (cur ++ [c]) cs).tree links
      refine ⟨links, ?_⟩
      rw [heq] at hw ⊢
      rwa [walkWith_dir hproper hmade]
    · rw [if_neg hnone] at hr ⊢
      cases hl : resolve t cur [c] with
      | found l =>
        rw [hl] at hr
        by_cases hdir : isDir t l
        · simp only [hdir, if_true] at hr ⊢
          have hgrows := mkdirP_grows t l cs
          have hfirst : Reaches (mkdirP t l cs).tree cur [c] l := reaches_grows hgrows ⟨_, hl⟩
          exact (reaches_append (hgrows.isDir hdir) hfirst).mpr (ih hrest hr)
        · simp [hdir, fail] at hr
      | absent d n => simp [hl, fail] at hr
      | failed => simp [hl, fail] at hr

/-- `mkdir -p` of a path that it has made does nothing. -/
theorem mkdirP_again {cur : Loc} {cs : List Text} (hp : ∀ c ∈ cs, Proper c) {d : Loc}
    (hr : (mkdirP t cur cs).result = some d) (h : Grows (mkdirP t cur cs).tree u) :
    mkdirP u cur cs = done u d := by
  induction cs generalizing t cur with
  | nil =>
    cases hr
    rfl
  | cons c cs ih =>
    have hproper := hp c List.mem_cons_self
    have hrest : ∀ q ∈ cs, Proper q := fun q hq => hp q (List.mem_cons_of_mem c hq)
    rw [mkdirP_step hproper] at hr h
    by_cases hnone : t (cur ++ [c]) = none
    · rw [if_pos hnone, write_andThen] at hr h
      have hmade : isDir u (cur ++ [c]) :=
        h.isDir ((mkdirP_grows _ _ _).isDir (isDir_put_self _ _ _))
      rw [mkdirP_dir hproper hmade]
      exact ih hrest hr h
    · rw [if_neg hnone] at hr h
      cases hl : resolve t cur [c] with
      | found l =>
        rw [hl] at hr h
        by_cases hdir : isDir t l
        · simp only [hdir, if_true] at hr h
          have hgrows := (mkdirP_grows t l cs).trans h
          have hsome : u (cur ++ [c]) ≠ none := by
            obtain ⟨n, hn⟩ := Option.ne_none_iff_exists'.mp hnone
            rw [hgrows.eq_some hn]
            simp
          have hagain : resolve u cur [c] = .found l := walk_grows hgrows le_rfl hl
          rw [mkdirP_step hproper, if_neg hsome, hagain]
          simp only [hgrows.isDir hdir, if_true]
          exact ih hrest hr h
        · simp [hdir, fail] at hr
      | absent d n => simp [hl, fail] at hr
      | failed => simp [hl, fail] at hr

theorem withDirs_dir (h : WellFormed t) {d : Loc} (hd : t d ≠ none) : withDirs t [] d = t := by
  funext l
  rw [withDirs, if_neg]
  rintro ⟨hnone, -, hl⟩
  rcases h.prefix_dir hl hd with rfl | hdir
  · exact hd hnone
  · exact isDir_exists hdir hnone

theorem withDirs_from (h : WellFormed t) {cur : Loc} (hc : isDir t cur) (cs : List Text) :
    withDirs t cur cs = withDirs t [] (cur ++ cs) := by
  funext l
  rw [withDirs, withDirs]
  congr 1
  rw [List.nil_append]
  apply propext
  constructor
  · rintro ⟨hnone, -, hl⟩
    exact ⟨hnone, List.nil_prefix, hl⟩
  · rintro ⟨hnone, -, hl⟩
    refine ⟨hnone, ?_, hl⟩
    rcases List.prefix_or_prefix_of_prefix (List.prefix_append cur cs) hl with hpre | hpre
    · exact hpre
    · rcases h.prefix_dir hpre (isDir_exists hc) with rfl | hdir
      · exact List.prefix_rfl
      · exact absurd hnone (isDir_exists hdir)

/-- All that `mkdir -p` makes are the missing directories on the way to the one it reports. -/
theorem mkdirP_result (h : WellFormed t) {cur : Loc} (hc : isDir t cur) {cs : List Text}
    (hp : ∀ c ∈ cs, Proper c) {d : Loc} (hr : (mkdirP t cur cs).result = some d) :
    (mkdirP t cur cs).tree = withDirs t [] d := by
  induction cs generalizing cur with
  | nil =>
    cases hr
    exact (withDirs_dir h (isDir_exists hc)).symm
  | cons c cs ih =>
    have hproper := hp c List.mem_cons_self
    have hrest : ∀ q ∈ cs, Proper q := fun q hq => hp q (List.mem_cons_of_mem c hq)
    by_cases hnone : t (cur ++ [c]) = none
    · have pass : Passable t cur (c :: cs) := by
        intro p hpre
        rcases List.prefix_cons_iff.mp hpre with rfl | ⟨q, rfl, -⟩
        · rw [List.append_nil]
          exact .inr hc
        · left
          rcases eq_or_ne q [] with rfl | hq
          · exact hnone
          · have hbelow := h.below (l := cur ++ [c]) (by simp [isDir, hnone]) hq
            rwa [List.append_assoc, List.singleton_append] at hbelow
      obtain ⟨htree, hresult⟩ := mkdirP_passable h hc hp pass
      obtain rfl : cur ++ c :: cs = d := Option.some.inj (hresult.symm.trans hr)
      rw [htree, withDirs_from h hc]
    · rw [mkdirP_step hproper, if_neg hnone] at hr ⊢
      cases hl : resolve t cur [c] with
      | found l =>
        rw [hl] at hr
        by_cases hdir : isDir t l
        · simp only [hdir, if_true] at hr ⊢
          exact ih hdir hrest hr
        · simp [hdir, fail] at hr
      | absent d n => simp [hl, fail] at hr
      | failed => simp [hl, fail] at hr

/-- Once a file has been made, a redirection still leads to where it did. -/
theorem redirectPlace_put {l : Loc} (hl : t l = none) (content : α) (mode : ℕ) (d : Loc)
    (x : Last) :
    redirectPlace (put t l (.file content mode)) d x = redirectPlace t d x := by
  have hdir : isDir t l = false := by simp [isDir, hl]
  have hlink : isSymlink t l = false := by simp [isSymlink, hl]
  rw [redirectPlace, redirectPlace, resolve_put_file hdir hlink]
  cases hr : resolve t d x.path with
  | found q =>
    change (if isDir (put t l (.file content mode)) q then none else some q) = _
    rcases eq_or_ne q l with rfl | hne
    · simp [hdir, Node.isDir]
    · rw [isDir_put_other hne]
  | absent q n =>
    rw [Resolved.onceWritten]
    by_cases heq : q ++ [n] = l
    · rw [if_pos heq]
      simp [heq, Node.isDir]
    · rw [if_neg heq]
  | failed => rfl

end Making

end Reaching
