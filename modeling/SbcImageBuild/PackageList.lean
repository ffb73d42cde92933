import SbcImageBuild.CommaList

/-!
# The package list of a root file system

`DEBIAN_PACKAGES` in canonical form, and the list `build_debian.sh` passes to `mmdebstrap`.
-/
namespace PackageList

open ShellText Delimited FirstOccurrence DebianSelection CommaList

/-- The packages of every root file system. -/
def basePackages : List Text :=
  ["ca-certificates", "cloud-guest-utils", "curl", "dbus", "e2fsprogs", "ethtool", "gdisk",
   "iproute2", "iputils-ping", "kmod", "less", "net-tools", "openssh-server", "passwd", "procps",
   "psmisc", "sudo", "systemd", "systemd-sysv", "udev", "util-linux", "vim-tiny",
   "wget"].map String.toList

/-- `PACKAGES` before the requested packages are appended. -/
def ownPackages (debianRelease rootfsMode : Text) : List Text :=
  basePackages ++
    (if debianRelease ≠ "11".toList then ["systemd-resolved".toList] else []) ++
    if rootfsMode = "ro-overlay".toList then ["initramfs-tools".toList, "busybox".toList] else []

/-- `debian_package_list`: one line for every package, and nothing for none. -/
def debianPackageList (custom : List Text) : Text := terminate '\n' custom

/-- `PACKAGE_LIST`, from the lines read back into an array. -/
def packageList (debianRelease rootfsMode : Text) (custom : List Text) : Text :=
  let extraPackages := records '\n' (debianPackageList custom)
  join ',' (deduplicate (ownPackages debianRelease rootfsMode ++ extraPackages) [])

/-- What holds of a resolved selection, of the string it leaves, and of the list of the image. -/
structure Canonical (debianRelease rootfsMode raw : Text) (sel : Selection) : Prop where
  first : KeepsFirst (selectedPackages raw) sel.list
  nonempty : ∀ p ∈ sel.list, p ≠ []
  names : ∀ p ∈ sel.list, p ∉ featureAliases ∧ p ≠ "networkmanager".toList
  split : readArray ',' sel.value = sel.list
  again : ∃ sel', resolveDebianPackages sel.value = .ok sel' ∧ sel'.list = sel.list
  image : KeepsFirst (ownPackages debianRelease rootfsMode ++ sel.list)
    (readArray ',' (packageList debianRelease rootfsMode sel.list))

/-- Several tokens that all are the same word for an empty list. -/
def RepeatsOptOut (raw : Text) : Prop :=
  ∃ t ∈ packageOptOuts, ∃ n, tokens raw = List.replicate (n + 2) t

theorem tokens_optOut : ∀ t ∈ packageOptOuts, tokens t = [t] := by decide

/-- A joined list is an opt-out only as its single element. -/
theorem join_mem_optOuts_iff {ts : List Text} (htokens : tokens (join ',' ts) = ts) :
    join ',' ts ∈ packageOptOuts ↔ ∃ t ∈ packageOptOuts, ts = [t] := by
  constructor
  · intro hout
    exact ⟨_, hout, htokens.symm.trans (tokens_optOut _ hout)⟩
  · rintro ⟨t, hout, rfl⟩
    simpa [join] using hout

theorem selectedPackages_eq (raw : Text) : selectedPackages raw =
    if ∃ t ∈ packageOptOuts, tokens raw = [t] then [] else tokens raw := by
  have htokens : tokens (join ',' (tokens raw)) = tokens raw :=
    tokens_join (tokens_plain raw).1 fun _ ht _ hc => not_separator_of_mem_tokens ht hc
  rw [selectedPackages, normalizeCommaList_eq]
  simp only [join_mem_optOuts_iff htokens]

/-- Deduplication leaves an opt-out exactly when the input repeats it. -/
theorem eraseDups_optOut_iff (raw : Text) :
    (∃ t ∈ packageOptOuts, (selectedPackages raw).eraseDups = [t]) ↔ RepeatsOptOut raw := by
  constructor
  · rintro ⟨t, hout, hkept⟩
    obtain ⟨n, hn⟩ := eraseDups_eq_singleton_iff.mp hkept
    have hne : selectedPackages raw ≠ [] := by simp [hn]
    rw [selectedPackages_eq] at hn hne
    split at hn
    · simp at hn
    · rename_i hsingle
      cases n with
      | zero => exact absurd ⟨t, hout, by simpa using hn⟩ hsingle
      | succ n => exact ⟨t, hout, n, hn⟩
  · rintro ⟨t, hout, n, hn⟩
    have hsingle : ¬ ∃ u ∈ packageOptOuts, tokens raw = [u] := by
      rintro ⟨u, -, hu⟩
      have hlength := congrArg List.length (hn.symm.trans hu)
      simp at hlength
    refine ⟨t, hout, eraseDups_eq_singleton_iff.mpr ⟨n + 1, ?_⟩⟩
    rw [selectedPackages_eq, if_neg hsingle, hn]

/-- The resolved string is resolved to the same list unless it is an opt-out. -/
theorem resolves_again_iff {raw : Text} {sel : Selection}
    (h : resolveDebianPackages raw = .ok sel) :
    (∃ sel', resolveDebianPackages sel.value = .ok sel' ∧ sel'.list = sel.list) ↔
      ¬ RepeatsOptOut raw := by
  obtain ⟨hchecks, rfl⟩ := resolveDebianPackages_ok_iff.mp h
  let kept := (selectedPackages raw).eraseDups
  have hmem : ∀ p ∈ kept, p ∈ tokens raw := fun p hp =>
    selectedPackages_subset (List.mem_eraseDups.mp hp)
  have htokens : tokens (join ',' kept) = kept :=
    tokens_join (fun p hp => (tokens_plain raw).1 p (hmem p hp))
      fun p hp _ hc => not_separator_of_mem_tokens (hmem p hp) hc
  have hselected : selectedPackages (join ',' kept) =
      if ∃ t ∈ packageOptOuts, kept = [t] then [] else kept := by
    rw [selectedPackages_eq, htokens]
  rw [← eraseDups_optOut_iff]
  change (∃ sel', resolveDebianPackages (join ',' kept) = .ok sel' ∧ sel'.list = kept) ↔
    ¬ ∃ t ∈ packageOptOuts, kept = [t]
  constructor
  · rintro ⟨sel', hagain, hlist⟩ ⟨t, hout, hkept⟩
    obtain ⟨-, rfl⟩ := resolveDebianPackages_ok_iff.mp hagain
    rw [hselected, if_pos ⟨t, hout, hkept⟩, hkept] at hlist
    cases hlist
  · intro hout
    rw [if_neg hout] at hselected
    refine ⟨selectionOf kept, resolveDebianPackages_ok_iff.mpr ⟨?_, ?_⟩, rfl⟩
    · intro p hp
      rw [hselected] at hp
      exact hchecks p (List.mem_eraseDups.mp hp)
    · rw [hselected, eraseDups_of_nodup (nodup_eraseDups _)]

theorem plain_append {ts us : List Text} (ht : Plain ts) (hu : Plain us) : Plain (ts ++ us) := by
  obtain ⟨h₁, h₂, h₃⟩ := ht
  obtain ⟨k₁, k₂, k₃⟩ := hu
  refine ⟨fun t h => ?_, fun t h => ?_, fun t h => ?_⟩
  all_goals rcases List.mem_append.mp h with h | h
  · exact h₁ t h
  · exact k₁ t h
  · exact h₂ t h
  · exact k₂ t h
  · exact h₃ t h
  · exact k₃ t h

theorem ownPackages_plain (debianRelease rootfsMode : Text) :
    Plain (ownPackages debianRelease rootfsMode) := by
  have hbase : Plain basePackages := by decide +kernel
  have hresolved : Plain ["systemd-resolved".toList] := by decide +kernel
  have hoverlay : Plain ["initramfs-tools".toList, "busybox".toList] := by decide +kernel
  unfold ownPackages
  apply plain_append
  · apply plain_append hbase
    split
    · exact hresolved
    · exact plain_nil
  · split
    · exact hoverlay
    · exact plain_nil

theorem readArray_packageList (debianRelease rootfsMode : Text) {custom : List Text}
    (h : Plain custom) : readArray ',' (packageList debianRelease rootfsMode custom) =
      (ownPackages debianRelease rootfsMode ++ custom).eraseDups := by
  have hall := plain_append (ownPackages_plain debianRelease rootfsMode) h
  have hdedup := @deduplicate_eq (ownPackages debianRelease rootfsMode ++ custom) [] hall.1
  have hkept : Plain (ownPackages debianRelease rootfsMode ++ custom).eraseDups :=
    ⟨fun t ht => hall.1 t (List.mem_eraseDups.mp ht),
      fun t ht => hall.2.1 t (List.mem_eraseDups.mp ht),
      fun t ht => hall.2.2 t (List.mem_eraseDups.mp ht)⟩
  rw [List.eraseDups_nil, List.nil_append] at hdedup
  rw [packageList, debianPackageList, records_terminate h.2.2, hdedup, readArray_join hkept]

theorem names_of_checkPackage {p : Text} (h : checkPackage p = .ok ()) :
    p ∉ featureAliases ∧ p ≠ "networkmanager".toList := by
  unfold checkPackage at h
  split at h
  · cases h
  · rename_i halias
    split at h
    · cases h
    · exact ⟨halias, ‹_›⟩

/-- A resolved list is canonical unless the input repeats one word for an empty list. -/
theorem package_list_canonical_iff {debianRelease rootfsMode raw : Text} {sel : Selection}
    (h : resolveDebianPackages raw = .ok sel) :
    Canonical debianRelease rootfsMode raw sel ↔ ¬ RepeatsOptOut raw := by
  rw [← resolves_again_iff h]
  constructor
  · exact Canonical.again
  · intro again
    obtain ⟨hplain, hsel⟩ := resolveDebianPackages_ok h
    obtain ⟨hchecks, hlist⟩ := resolveDebianPackages_ok_iff.mp h
    have hkept : sel.list = (selectedPackages raw).eraseDups := congrArg Selection.list hlist
    refine ⟨hkept ▸ keepsFirst_eraseDups _, hplain.1, fun p hp => ?_, ?_, again, ?_⟩
    · exact names_of_checkPackage (hchecks p (List.mem_eraseDups.mp (hkept ▸ hp)))
    · rw [congrArg Selection.value hsel]
      exact readArray_join hplain
    · rw [readArray_packageList _ _ hplain]
      exact keepsFirst_eraseDups _

theorem package_list_canonical_repeated :
    Canonical "12".toList "ro-overlay".toList "htop curl,htop".toList
      ⟨"htop,curl".toList, ["htop".toList, "curl".toList]⟩ := by
  have run : resolveDebianPackages "htop curl,htop".toList =
      .ok ⟨"htop,curl".toList, ["htop".toList, "curl".toList]⟩ := by decide +kernel
  have htokens : tokens "htop curl,htop".toList =
      ["htop".toList, "curl".toList, "htop".toList] := by decide +kernel
  refine (package_list_canonical_iff run).mpr ?_
  rintro ⟨t, -, n, hn⟩
  rw [htokens, List.replicate_succ, List.replicate_succ, List.cons.injEq, List.cons.injEq] at hn
  exact absurd (hn.1.trans hn.2.1.symm) (by decide)

/-- The list of `none,none` is `none`, and resolving that gives an empty list. -/
theorem package_list_opt_out : ∃ sel, resolveDebianPackages "none,none".toList = .ok sel ∧
    sel.list = ["none".toList] ∧ resolveDebianPackages sel.value = .ok ⟨[], []⟩ ∧
    ¬ Canonical "12".toList "rw-ext4".toList "none,none".toList sel := by
  have again : resolveDebianPackages "none".toList = .ok ⟨[], []⟩ := by decide +kernel
  refine ⟨⟨"none".toList, ["none".toList]⟩, by decide +kernel, rfl, again, fun canonical => ?_⟩
  obtain ⟨sel', hagain, hlist⟩ := canonical.again
  rw [again] at hagain
  cases hagain
  cases hlist

end PackageList
