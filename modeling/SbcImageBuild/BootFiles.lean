import SbcImageBuild.ImageVerification

/-!
# The files of the boot partition

What `make_image.sh` copies into the boot partition can be copied out again, and `extlinux.conf` has
the lines that `verify_image.sh` looks for.
-/
namespace BootFiles

open ShellText BoardProfile Delimited BootClosure ImageVerification
open KernelHook (Grep Has)

section Boot

variable {t : Tools} {p : Vars} {labels : Labels} {conf : Conf}

theorem copyOverlays_read {m : FatTools} {b : Stage} {ws : List Text} {fat : m.Fat}
    {r : BootImage m.toMtools} {path : Text}
    (hapart : ∀ dtbo ∈ ws, (b.overlays dtbo).isSome → m.entry path ≠ m.entry (overlayPath dtbo))
    (h : copyOverlays m.toMtools b conf ws fat = some r) : m.read r.fat path = m.read fat path := by
  induction ws generalizing fat r with
  | nil =>
    obtain rfl := Option.some.inj h
    rfl
  | cons dtbo ws ih =>
    have hbehind := fun w hw => hapart w (List.mem_cons_of_mem dtbo hw)
    cases hfile : b.overlays dtbo with
    | some content =>
      simp only [copyOverlays, hfile, Option.bind_eq_bind, Option.bind_eq_some_iff, pure] at h
      obtain ⟨g, hg, r₁, hr₁, hr⟩ := h
      obtain rfl := Option.some.inj hr
      have hne := hapart dtbo List.mem_cons_self (by simp [hfile])
      have hrest := ih hbehind hr₁
      exact hrest.trans ((m.read_mcopy hg path).trans (if_neg hne))
    | none =>
      simp only [copyOverlays, hfile, Option.bind_eq_bind, Option.bind_eq_some_iff, pure] at h
      obtain ⟨r₁, hr₁, hr⟩ := h
      obtain rfl := Option.some.inj hr
      have hrest := ih hbehind hr₁
      exact hrest

/-- What can be copied out of the boot partition again. -/
structure Filled (m : FatTools) (labels : Labels) (b : Stage) (fat : m.Fat) : Prop where
  image : m.read fat "/Image".toList = b.image
  dtb : m.read fat ('/' :: b.kernelDtb) = b.dtb
  conf : m.read fat "/extlinux/extlinux.conf".toList = some (b.conf labels).text
  initrd : b.rootfsMode = roOverlay → m.read fat "/initrd.img".toList = b.initrd

def bootFiles (b : Stage) : List Text :=
  ["/Image".toList, '/' :: b.kernelDtb, "/extlinux/extlinux.conf".toList]

def initrdFiles (b : Stage) : List Text :=
  if b.rootfsMode = roOverlay then ["/initrd.img".toList] else []

def overlayFiles (b : Stage) : List Text :=
  if b.kernelDtbo = [] then [] else "/overlays".toList :: b.present.map overlayPath

theorem made_eq (b : Stage) : b.made = ["/".toList, "/extlinux".toList] ++
    (bootFiles b ++ (initrdFiles b ++ overlayFiles b)) := by
  rw [Stage.made, List.append_assoc]
  rfl

/-- The boot partition, with every kind of file apart from the ones behind it. -/
structure Apart (m : FatTools) (b : Stage) : Prop where
  image_dtb : m.entry "/Image".toList ≠ m.entry ('/' :: b.kernelDtb)
  image_conf : m.entry "/Image".toList ≠ m.entry "/extlinux/extlinux.conf".toList
  dtb_conf : m.entry ('/' :: b.kernelDtb) ≠ m.entry "/extlinux/extlinux.conf".toList
  initrd : ∀ x ∈ bootFiles b, ∀ y ∈ initrdFiles b, m.entry x ≠ m.entry y
  overlays : ∀ x ∈ bootFiles b ++ initrdFiles b, ∀ y ∈ overlayFiles b, m.entry x ≠ m.entry y

theorem apart_of_nodup {m : FatTools} {b : Stage} (h : (b.made.map m.entry).Nodup) :
    Apart m b := by
  rw [made_eq, List.map_append, List.map_append] at h
  obtain ⟨hboot, hrest, hbehind⟩ := List.nodup_append.mp (List.nodup_append.mp h).2.1
  rw [List.map_append] at hrest hbehind
  have hover := (List.nodup_append.mp hrest).2.2
  have hmap : ∀ {x : Text} {xs : List Text}, x ∈ xs → m.entry x ∈ xs.map m.entry :=
    List.mem_map_of_mem
  simp only [bootFiles, List.map_cons, List.map_nil, List.nodup_cons, List.mem_cons,
    List.not_mem_nil, or_false, not_or] at hboot
  refine ⟨hboot.1.1, hboot.1.2, hboot.2.1, ?_, ?_⟩
  · exact fun x hx y hy => hbehind _ (hmap hx) _ (List.mem_append_left _ (hmap hy))
  · intro x hx y hy
    rcases List.mem_append.mp hx with hx | hx
    · exact hbehind _ (hmap hx) _ (List.mem_append_right _ (hmap hy))
    · exact hover _ (hmap hx) _ (hmap hy)

/-- The overlays are copied last. They hide no file in front of them. -/
theorem overlays_read {m : FatTools} {b : Stage} {fat : m.Fat} {r : BootImage m.toMtools}
    (hapart : Apart m b)
    (h : (if b.kernelDtbo = [] then some ⟨conf, fat, [], []⟩ else do
      let fat ← m.mmd fat "/overlays".toList
      copyOverlays m.toMtools b conf b.dtbos fat) = some r) {path : Text}
    (hpath : path ∈ bootFiles b ++ initrdFiles b) : m.read r.fat path = m.read fat path := by
  have hover := hapart.overlays path hpath
  split at h
  · obtain rfl := Option.some.inj h
    rfl
  · rename_i hsome
    rw [overlayFiles, if_neg hsome] at hover
    obtain ⟨g, hg, hcopy⟩ := Option.bind_eq_some_iff.mp h
    have hcopied : m.read r.fat path = m.read g path := by
      refine copyOverlays_read (fun dtbo hdtbo hfile => ?_) hcopy
      have hpresent : dtbo ∈ b.present := List.mem_filter.mpr ⟨hdtbo, hfile⟩
      exact hover _ (List.mem_cons_of_mem _ (List.mem_map_of_mem hpresent))
    exact hcopied.trans (m.read_mmd hg path (hover _ List.mem_cons_self))

/-- Names that stand for different entries are read back as they were copied. -/
theorem filled_of_makeBootImage {m : FatTools} {b : Stage} {r : BootImage m.toMtools}
    (hnodup : (b.made.map m.entry).Nodup)
    (h : makeBootImage m.toMtools labels b b = some r) : Filled m labels b r.fat := by
  have hapart := apart_of_nodup hnodup
  simp only [makeBootImage, Option.bind_eq_bind, Option.bind_eq_some_iff] at h
  obtain ⟨f₁, h₁, image, himage, f₂, h₂, dtb, hdtb, f₃, h₃, f₄, h₄, f₅, h₅, h⟩ := h
  have hlast : ∀ path ∈ bootFiles b ++ initrdFiles b, m.read r.fat path = m.read f₅ path :=
    fun path hpath => overlays_read hapart h hpath
  have hinitrd : ∀ path ∈ bootFiles b, m.read f₅ path = m.read f₄ path := by
    intro path hpath
    have hne := hapart.initrd path hpath
    rw [copyInitrd] at h₅
    split_ifs at h₅ with hm
    · obtain ⟨initrd, -, hcopy⟩ := Option.bind_eq_some_iff.mp h₅
      rw [initrdFiles, if_pos hm] at hne
      exact (m.read_mcopy hcopy path).trans (if_neg (hne _ List.mem_cons_self))
    · obtain rfl := Option.some.inj h₅
      rfl
  have hfront : ∀ path ∈ bootFiles b, m.read r.fat path = m.read f₄ path := fun path hpath =>
    (hlast path (List.mem_append_left _ hpath)).trans (hinitrd path hpath)
  constructor
  case image =>
    rw [hfront _ (by simp [bootFiles]), m.read_mcopy h₄, if_neg hapart.image_conf,
      m.read_mcopy h₃, if_neg hapart.image_dtb, m.read_mcopy h₂, if_pos rfl, himage]
  case dtb =>
    rw [hfront _ (by simp [bootFiles]), m.read_mcopy h₄, if_neg hapart.dtb_conf,
      m.read_mcopy h₃, if_pos rfl, hdtb]
  case conf =>
    rw [hfront _ (by simp [bootFiles]), m.read_mcopy h₄, if_pos rfl]
  case initrd =>
    intro hm
    rw [hlast _ (List.mem_append_right _ (by simp [initrdFiles, hm]))]
    rw [copyInitrd, if_pos hm, if_pos hm] at h₅
    obtain ⟨initrd, hsome, hcopy⟩ := Option.bind_eq_some_iff.mp h₅
    rw [m.read_mcopy hcopy, if_pos rfl, hsome]

/-- The lines of a text between two newlines are lines of the whole. -/
theorem mem_records_between {q front pattern back : Text} (h : q ∈ pattern.splitOn '\n') :
    q ∈ records '\n' (front ++ '\n' :: (pattern ++ '\n' :: back)) := by
  have hne := List.splitOn_ne_nil '\n' back
  have hmem : q ∈ front.splitOn '\n' ++ pattern.splitOn '\n' :=
    List.mem_append_right _ h
  rw [records, List.splitOn_append_cons_self, List.splitOn_append_cons_self, ← List.append_assoc,
    dropEmptyLast]
  split
  · rw [List.dropLast_append_of_ne_nil hne]
    exact List.mem_append_left _ hmem
  · exact List.mem_append_left _ hmem

theorem grepFx_between (front pattern back : Text) :
    GrepFx pattern (front ++ '\n' :: (pattern ++ '\n' :: back)) := by
  obtain ⟨q, hq⟩ := List.exists_mem_of_ne_nil _ (List.splitOn_ne_nil '\n' pattern)
  exact ⟨q, hq, mem_records_between hq⟩

theorem grep_of_infix {q text : Text} (hfree : '\n' ∉ q) (hne : q ≠ []) (h : q <:+: text) :
    Grep (Has q) text := by
  rw [← join_splitOn '\n' text, infix_join_iff_exists hfree hne] at h
  obtain ⟨line, hline, hin⟩ := h
  have hfull : line ≠ [] := fun hnil => hne (List.eq_nil_of_infix_nil (hnil ▸ hin))
  refine ⟨line, ?_, hin⟩
  rw [records, dropEmptyLast]
  split
  · rename_i hlast
    have hsplit := List.dropLast_append_getLast? [] hlast
    rw [← hsplit, List.mem_append, List.mem_singleton] at hline
    exact hline.resolve_right hfull
  · exact hline

theorem firstLine_mem (t : Text) : firstLine t ∈ t.splitOn '\n' := by
  have hfree : '\n' ∉ firstLine t := fun hmem => by simpa using List.mem_takeWhile_imp hmem
  have hsplit : firstLine t ++ t.dropWhile (· ≠ '\n') = t := List.takeWhile_append_dropWhile
  have hhead := List.head?_dropWhile_not (· ≠ '\n') t
  generalize firstLine t = line at *
  generalize t.dropWhile (· ≠ '\n') = rest at *
  subst hsplit
  cases rest with
  | nil => simp [List.splitOn_eq_singleton hfree]
  | cons d rest =>
    obtain rfl : d = '\n' := by simpa using hhead
    simp [List.splitOn_append_cons_self_of_not_mem hfree]

/-- The first line of a pattern is enough. -/
theorem grepF_of_infix {pattern text : Text} (hfirst : ∃ x ∈ pattern.head?, x ≠ '\n')
    (h : pattern <:+: text) : GrepF pattern text := by
  obtain ⟨x, hx, hne⟩ := hfirst
  obtain ⟨rest, rfl⟩ := List.head?_eq_some_iff.mp hx
  have hfree : '\n' ∉ firstLine (x :: rest) := fun hmem => by
    simpa using List.mem_takeWhile_imp hmem
  have hline : firstLine (x :: rest) = x :: firstLine rest :=
    List.takeWhile_cons_of_pos (by simpa using hne)
  exact ⟨_, firstLine_mem _, grep_of_infix hfree (hline ▸ List.cons_ne_nil _ _)
    ((List.takeWhile_prefix _).isInfix.trans h)⟩

/-- The lines in front of the mode of the root; each starts with its newline. -/
def confFront (c : Conf) : Text :=
  "DEFAULT ".toList ++ (c.labels.extlinuxLabel ++ ("\nTIMEOUT 10\n\nLABEL ".toList ++
    (c.labels.extlinuxLabel ++ "\n    LINUX /Image".toList)))

def confOverlays (c : Conf) : Text :=
  if c.fdtOverlays.isSome then
    '\n' :: ("    FDTOVERLAYS".toList ++ c.overlayPaths.flatMap (' ' :: ·)) else []

def overlayMode : Text :=
  "    APPEND root=PARTLABEL=rootfs rootwait ro overlayroot=PARTLABEL=data ".toList

def writableMode : Text := "    APPEND root=PARTLABEL=rootfs rootwait rw ".toList

def confBack (c : Conf) : Text :=
  "console=".toList ++ (c.labels.console ++ ' ' :: (c.labels.extraKernelArgs ++ ['\n']))

def confMode (c : Conf) : Text :=
  if c.initrd then "    INITRD /initrd.img".toList ++ '\n' :: (overlayMode ++ confBack c)
  else writableMode ++ confBack c

theorem conf_text (c : Conf) :
    c.text = confFront c ++ '\n' :: ("    FDT /".toList ++ (c.fdt ++ (confOverlays c ++ '\n' ::
      confMode c))) := by
  have hfdt : "\n    LINUX /Image\n    FDT /".toList =
      "\n    LINUX /Image".toList ++ '\n' :: "    FDT /".toList := by
    repeat rw [String.toList_ofList]
    rfl
  have hoverlay : "    INITRD /initrd.img\n    APPEND root=PARTLABEL=rootfs rootwait ro ".toList ++
      "overlayroot=PARTLABEL=data console=".toList =
      "    INITRD /initrd.img".toList ++ '\n' :: (overlayMode ++ "console=".toList) := by
    unfold overlayMode
    repeat rw [String.toList_ofList]
    rfl
  have hwritable : "    APPEND root=PARTLABEL=rootfs rootwait rw console=".toList =
      writableMode ++ "console=".toList := by
    unfold writableMode
    repeat rw [String.toList_ofList]
    rfl
  have hnewline : "\n".toList = ['\n'] := by rfl
  have hblank : " ".toList = [' '] := by rfl
  unfold Conf.text confFront confOverlays confMode confBack
  rw [hfdt, hoverlay, hwritable, hnewline, hblank]
  cases c.initrd <;> cases c.fdtOverlays <;>
    simp only [Option.isSome_none, Option.isSome_some, Bool.false_eq_true, if_true, if_false,
      List.append_assoc, List.cons_append, List.nil_append]

theorem grepFx_fdt (c : Conf) : GrepFx ("    FDT /".toList ++ c.fdt) c.text := by
  rw [conf_text, confOverlays]
  split
  · rw [List.cons_append, ← List.append_assoc]
    exact grepFx_between _ _ _
  · rw [List.nil_append, ← List.append_assoc]
    exact grepFx_between _ _ _

/-- What is in the last line of the configuration is found. -/
theorem grepF_mode {c : Conf} {pattern : Text} (hfirst : ∃ x ∈ pattern.head?, x ≠ '\n')
    (h : pattern <:+: confMode c) : GrepF pattern c.text := by
  refine grepF_of_infix hfirst (h.trans ?_)
  rw [conf_text]
  exact ⟨confFront c ++ '\n' :: ("    FDT /".toList ++ (c.fdt ++ (confOverlays c ++ ['\n']))), [],
    by simp⟩

theorem grepFx_initrd {c : Conf} (h : c.initrd = true) :
    GrepFx "    INITRD /initrd.img".toList c.text := by
  have htext : c.text = confFront c ++ '\n' :: ("    FDT /".toList ++ (c.fdt ++ confOverlays c)) ++
      '\n' :: ("    INITRD /initrd.img".toList ++ '\n' :: (overlayMode ++ confBack c)) := by
    rw [conf_text, confMode, if_pos h]
    simp only [List.append_assoc, List.cons_append]
  rw [htext]
  exact grepFx_between _ _ _

theorem mode_passes {c : Conf} (h : c.initrd = decide (p.rootfsMode = roOverlay)) :
    checkMode p c.text = .ok () := by
  unfold checkMode
  by_cases hm : p.rootfsMode = roOverlay
  · have hinitrd : c.initrd = true := h.trans (decide_eq_true hm)
    have hin : overlayMode <:+: confMode c := by
      rw [confMode, if_pos hinitrd]
      exact ⟨"    INITRD /initrd.img".toList ++ ['\n'], confBack c, by simp⟩
    have hroot : "root=PARTLABEL=rootfs rootwait ro".toList <:+: overlayMode := by
      refine ⟨"    APPEND ".toList, " overlayroot=PARTLABEL=data ".toList, ?_⟩
      unfold overlayMode
      repeat rw [String.toList_ofList]
      rfl
    have hdata : "overlayroot=PARTLABEL=data".toList <:+: overlayMode := by
      refine ⟨"    APPEND root=PARTLABEL=rootfs rootwait ro ".toList, [' '], ?_⟩
      unfold overlayMode
      repeat rw [String.toList_ofList]
      rfl
    have hreadOnly := grepF_mode ⟨'r', rfl, by decide⟩ (hroot.trans hin)
    have hoverlayroot := grepF_mode ⟨'o', rfl, by decide⟩ (hdata.trans hin)
    rw [if_pos hm]
    simp only [bind_ok, require_ok]
    exact ⟨(), grepFx_initrd hinitrd, (), hreadOnly, hoverlayroot⟩
  · have hinitrd : ¬ c.initrd = true := by simp [h, hm]
    have hin : writableMode <:+: confMode c := by
      rw [confMode, if_neg hinitrd]
      exact List.infix_append' [] writableMode (confBack c)
    have hroot : "root=PARTLABEL=rootfs rootwait rw".toList <:+: writableMode := by
      refine ⟨"    APPEND ".toList, [' '], ?_⟩
      unfold writableMode
      repeat rw [String.toList_ofList]
      rfl
    rw [if_neg hm, require_ok]
    exact grepF_mode ⟨'r', rfl, by decide⟩ (hroot.trans hin)

theorem console_passes (c : Conf) : GrepF ("console=".toList ++ c.labels.console) c.text := by
  have hsplit : confBack c = "console=".toList ++ c.labels.console ++
      ' ' :: (c.labels.extraKernelArgs ++ ['\n']) := (List.append_assoc _ _ _).symm
  have hback : "console=".toList ++ c.labels.console <:+: confBack c :=
    hsplit ▸ (List.prefix_append _ _).isInfix
  have hmode : confBack c <:+: confMode c := by
    rw [confMode]
    split
    · exact ⟨"    INITRD /initrd.img".toList ++ '\n' :: overlayMode, [], by
        simp only [List.append_assoc, List.cons_append, List.append_nil]⟩
    · exact ⟨writableMode, [], List.append_nil _⟩
  have hhead : ("console=".toList ++ c.labels.console).head? = some 'c' := by
    have hfirst : "console=".toList.head? = some 'c' := by rfl
    rw [List.head?_append, hfirst, Option.some_or]
  exact grepF_mode ⟨'c', hhead, by decide⟩ (hback.trans hmode)

end Boot

end BootFiles
