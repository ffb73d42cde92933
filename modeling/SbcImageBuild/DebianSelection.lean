import SbcImageBuild.BuildMetadata

/-!
# Debian packages and overlays

The lists a user selects, how `resolve_debian_packages` and `resolve_debian_overlays` reduce
them, and how `verify_image.sh` reads them back from the rootfs metadata.
-/
namespace DebianSelection

open ShellText Delimited BuildMetadata

/-- One pass of replacing each pair of commas by a single one. -/
def replacePairs : Text → Text
  | ',' :: ',' :: t => ',' :: replacePairs t
  | c :: t => c :: replacePairs t
  | [] => []

def HasPair (t : Text) : Prop := [',', ','] <:+: t

instance : DecidablePred HasPair := fun t => inferInstanceAs (Decidable ([',', ','] <:+: t))

/-- The `while` loop of `normalize_comma_list`, for at most `n` rounds. -/
def replaceAllPairs : ℕ → Text → Text
  | 0, t => t
  | n + 1, t => if HasPair t then replaceAllPairs n (replacePairs t) else t

def dropFirstComma : Text → Text
  | ',' :: t => t
  | t => t

def dropLastComma (t : Text) : Text := (dropFirstComma t.reverse).reverse

def normalizeCommaList (raw : Text) : Text :=
  let raw := raw.map fun c => if isSpace c || c == '+' || c == ';' then ',' else c
  let raw := replaceAllPairs raw.length raw
  dropLastComma (dropFirstComma raw)

theorem replacePairs_length (t : Text) : (replacePairs t).length ≤ t.length := by
  fun_induction replacePairs t with
  | case1 t ih => simp only [List.length_cons]; omega
  | case2 c t _ ih => simp only [List.length_cons]; omega
  | case3 => exact le_refl 0

/-- A round that finds a pair makes the text shorter. -/
theorem replacePairs_lt {t : Text} (h : HasPair t) : (replacePairs t).length < t.length := by
  fun_induction replacePairs t with
  | case1 t ih =>
    have hle := replacePairs_length t
    simp only [List.length_cons]
    omega
  | case2 c t hc ih =>
    have hrest : HasPair t := by
      rcases List.infix_cons_iff.mp h with hpre | hin
      · obtain ⟨s, hs⟩ := hpre
        obtain ⟨rfl, rfl⟩ : ',' = c ∧ ',' :: s = t := by simpa using hs
        exact absurd rfl (hc s rfl)
      · exact hin
    have hlt := ih hrest
    simp only [List.length_cons]
    omega
  | case3 =>
    have hlen := List.IsInfix.length_le h
    simp at hlen

/-- As many rounds as there are characters end the loop. -/
theorem replaceAllPairs_done {n : ℕ} {t : Text} (h : t.length ≤ n) :
    ¬ HasPair (replaceAllPairs n t) := by
  induction n generalizing t with
  | zero =>
    intro hpair
    have hlen := List.IsInfix.length_le hpair
    rw [replaceAllPairs] at hlen
    simp only [List.length_cons, List.length_nil] at hlen
    omega
  | succ n ih =>
    rw [replaceAllPairs]
    by_cases hp : HasPair t
    · have hlt := replacePairs_lt hp
      rw [if_pos hp]
      exact ih (by omega)
    · rwa [if_neg hp]

/-- The part of `rootfs/debian/overlays` that the selection depends on. -/
structure OverlayStore where
  overlaysDir : Text
  hasOverlay : Text → Bool
  mutexFile : Text → Option Text
  knownNames : List Text

/-- `DEBIAN_OVERLAYS` and `DEBIAN_OVERLAY_LIST`, or the same for the packages. -/
structure Selection where
  value : Text
  list : List Text
  deriving DecidableEq, Repr

def selectionOf (list : List Text) : Selection := ⟨join ',' list, list⟩

def unknownOverlay (s : OverlayStore) (token : Text) : Text :=
  "Unknown Debian overlay '".toList ++ token ++ "' (expected ".toList ++ s.overlaysDir ++
    "/".toList ++ token ++ "/overlay/). Available: ".toList ++ terminate ' ' s.knownNames

/-- The token loop of `resolve_debian_overlays`; the tokens seen are those resolved. -/
def resolveTokens (s : OverlayStore) : List Text → List Text → Except Text (List Text)
  | [], resolved => .ok resolved
  | field :: requested, resolved =>
    let token := field.filter fun c => !isSpace c
    if token = [] ∨ token ∈ resolved then resolveTokens s requested resolved
    else if s.hasOverlay token then resolveTokens s requested (resolved ++ [token])
    else .error (unknownOverlay s token)

def mutexGroup (s : OverlayStore) (token : Text) : Text :=
  match s.mutexFile token with
  | some content => (firstLine content).filter fun c => !isSpace c
  | none => []

/-- At most one overlay of each mutex group; `seen` maps a group to its overlay. -/
def checkMutexGroups (s : OverlayStore) : List Text → List (Text × Text) → Except Text Unit
  | [], _ => .ok ()
  | token :: resolved, seen =>
    let group := mutexGroup s token
    if group = [] then checkMutexGroups s resolved seen
    else match seen.lookup group with
      | some other => .error ("Overlays '".toList ++ other ++ "' and '".toList ++ token ++
          "' are mutually exclusive (group: ".toList ++ group ++ ")".toList)
      | none => checkMutexGroups s resolved ((group, token) :: seen)

def overlayOptOuts : List Text := ["none".toList, "off".toList, "-".toList]

def resolveDebianOverlays (s : OverlayStore) (debianOverlays : Text) : Except Text Selection := do
  let raw := normalizeCommaList debianOverlays
  if raw ∈ overlayOptOuts ∨ raw = [] then pure ⟨[], []⟩
  else
    let resolved ← resolveTokens s (readArray ',' raw) []
    checkMutexGroups s resolved []
    pure (selectionOf resolved)

def featureAliases : List Text :=
  ["nm", "hwdebug", "hw-debug", "debug-hw", "tools", "devtools", "firstboot-info", "firstboot",
   "motd", "wifibt", "wifi", "wifi-bt", "wifi_bt", "all"].map String.toList

def isPackageChar (c : Char) : Bool :=
  ('a' ≤ c && c ≤ 'z') || ('A' ≤ c && c ≤ 'Z') || isDigit c || c ∈ ".+~:_-".toList

def checkPackage (token : Text) : Except Text Unit :=
  if token ∈ featureAliases then
    .error ("DEBIAN_PACKAGES no longer accepts feature alias '".toList ++ token ++
      "'. Use real apt package names (e.g. network-manager,wpasupplicant,i2c-tools). ".toList ++
      "Optional policy lives in rootfs/debian/overlays/.".toList)
  else if token = "networkmanager".toList then
    .error ("Use apt package name 'network-manager' (not '".toList ++ token ++ "').".toList)
  else if token.all isPackageChar then .ok ()
  else .error ("Invalid Debian package name: ".toList ++ token)

def customPackages : List Text → Except Text (List Text)
  | [] => .ok []
  | field :: requested => do
    let token := field.filter fun c => !isSpace c
    if token = [] then customPackages requested
    else
      checkPackage token
      let rest ← customPackages requested
      pure (token :: rest)

/-- The second loop keeps the first occurrence of every package. -/
def deduplicate : List Text → List Text → List Text
  | [], deduped => deduped
  | pkg :: pkgs, deduped =>
    if pkg = [] ∨ pkg ∈ deduped then deduplicate pkgs deduped
    else deduplicate pkgs (deduped ++ [pkg])

def packageOptOuts : List Text := ["none".toList, "minbase".toList, "off".toList, "-".toList]

def resolveDebianPackages (debianPackages : Text) : Except Text Selection := do
  let raw := normalizeCommaList debianPackages
  if raw ∈ packageOptOuts ∨ raw = [] then pure ⟨[], []⟩
  else
    let custom ← customPackages (readArray ',' raw)
    pure (selectionOf (deduplicate custom []))

/-- `DEBIAN_OVERLAY_LIST` as `verify_image.sh` rebuilds it from the rootfs metadata. -/
def recordedOverlays (rootfsMeta : Text) : List Text :=
  let overlays := metadataValue rootfsMeta "debian_overlays".toList
  if overlays ≠ [] then readArray ',' overlays else []

/-- The `case` pattern `*,p,*` on the fenced package list of the rootfs metadata. -/
def PackageRecorded (rootfsMeta p : Text) : Prop :=
  ',' :: (p ++ [',']) <:+:
    ',' :: (metadataValue rootfsMeta "debian_packages".toList ++ [','])

/-- Tokens that survive joining with commas on a line of their own. -/
def Plain (ts : List Text) : Prop := (∀ t ∈ ts, t ≠ []) ∧ Free ',' ts ∧ Free '\n' ts

instance (ts : List Text) : Decidable (Plain ts) :=
  inferInstanceAs (Decidable ((∀ t ∈ ts, t ≠ []) ∧ (∀ t ∈ ts, ',' ∉ t) ∧ ∀ t ∈ ts, '\n' ∉ t))

theorem plain_nil : Plain [] := by simp [Plain]

theorem Plain.append {ts : List Text} {t : Text} (h : Plain ts) (hne : t ≠ []) (hc : ',' ∉ t)
    (hn : '\n' ∉ t) : Plain (ts ++ [t]) := by
  obtain ⟨h₁, h₂, h₃⟩ := h
  refine ⟨?_, ?_, ?_⟩ <;> intro q hq <;> rcases List.mem_append.mp hq with hq | hq
  · exact h₁ q hq
  · exact List.mem_singleton.mp hq ▸ hne
  · exact h₂ q hq
  · exact List.mem_singleton.mp hq ▸ hc
  · exact h₃ q hq
  · exact List.mem_singleton.mp hq ▸ hn

theorem token_plain {field : Text} (h : ',' ∉ field) :
    ',' ∉ field.filter (fun c => !isSpace c) ∧ '\n' ∉ field.filter (fun c => !isSpace c) := by
  constructor
  · exact fun hm => h (List.mem_of_mem_filter hm)
  · intro hm
    have hspace := (List.mem_filter.mp hm).2
    revert hspace
    decide

theorem resolveTokens_plain {s : OverlayStore} {requested resolved r : List Text}
    (h : resolveTokens s requested resolved = .ok r) (hreq : Free ',' requested)
    (hres : Plain resolved) : Plain r := by
  induction requested generalizing resolved with
  | nil =>
    cases h
    exact hres
  | cons field requested ih =>
    obtain ⟨hfield, hrest⟩ := free_cons.mp hreq
    rw [resolveTokens] at h
    split at h
    · exact ih h hrest hres
    · rename_i hnew
      split at h
      · obtain ⟨hc, hn⟩ := token_plain hfield
        exact ih h hrest (hres.append (fun heq => hnew (.inl heq)) hc hn)
      · cases h

theorem resolveDebianOverlays_ok {s : OverlayStore} {input : Text} {sel : Selection}
    (h : resolveDebianOverlays s input = .ok sel) :
    Plain sel.list ∧ sel = selectionOf sel.list := by
  unfold resolveDebianOverlays at h
  dsimp only at h
  split at h
  · cases h
    exact ⟨plain_nil, rfl⟩
  · simp only [bind_ok] at h
    obtain ⟨resolved, hres, _, -, hsel⟩ := h
    cases hsel
    exact ⟨resolveTokens_plain hres (records_free ',' _) plain_nil, rfl⟩

theorem customPackages_plain {requested custom : List Text}
    (h : customPackages requested = .ok custom) (hreq : Free ',' requested) : Plain custom := by
  induction requested generalizing custom with
  | nil =>
    cases h
    exact plain_nil
  | cons field requested ih =>
    obtain ⟨hfield, hrest⟩ := free_cons.mp hreq
    rw [customPackages] at h
    split at h
    · exact ih h hrest
    · rename_i hne
      simp only [bind_ok] at h
      obtain ⟨_, -, rest, hr, hc⟩ := h
      cases hc
      obtain ⟨h₁, h₂, h₃⟩ := ih hr hrest
      obtain ⟨hcomma, hline⟩ := token_plain hfield
      exact ⟨List.forall_mem_cons.mpr ⟨hne, h₁⟩, free_cons.mpr ⟨hcomma, h₂⟩,
        free_cons.mpr ⟨hline, h₃⟩⟩

theorem deduplicate_plain {pkgs deduped : List Text} (hp : Plain pkgs) (hd : Plain deduped) :
    Plain (deduplicate pkgs deduped) := by
  induction pkgs generalizing deduped with
  | nil => exact hd
  | cons pkg pkgs ih =>
    obtain ⟨hne, hcomma, hline⟩ := hp
    rw [List.forall_mem_cons] at hne
    rw [free_cons] at hcomma hline
    have hrest : Plain pkgs := ⟨hne.2, hcomma.2, hline.2⟩
    rw [deduplicate]
    split
    · exact ih hrest hd
    · exact ih hrest (hd.append hne.1 hcomma.1 hline.1)

theorem resolveDebianPackages_ok {input : Text} {sel : Selection}
    (h : resolveDebianPackages input = .ok sel) : Plain sel.list ∧ sel = selectionOf sel.list := by
  unfold resolveDebianPackages at h
  dsimp only at h
  split at h
  · cases h
    exact ⟨plain_nil, rfl⟩
  · simp only [bind_ok] at h
    obtain ⟨custom, hcustom, hsel⟩ := h
    cases hsel
    exact ⟨deduplicate_plain (customPackages_plain hcustom (records_free ',' _)) plain_nil, rfl⟩

/-- The joined list is one line, and splitting it at the commas gives the list again. -/
theorem readArray_join {ts : List Text} (h : Plain ts) : readArray ',' (join ',' ts) = ts := by
  rw [readArray, firstLine_of_line (join_free (by decide) h.2.2), records_join h.2.1 h.1]

theorem recordedOverlays_of_value {rootfsMeta : Text} {ts : List Text} (h : Plain ts)
    (hv : metadataValue rootfsMeta "debian_overlays".toList = join ',' ts) :
    recordedOverlays rootfsMeta = ts := by
  have hread := readArray_join h
  unfold recordedOverlays
  rw [hv]
  dsimp only
  split
  · exact hread
  · rename_i hempty
    rw [not_not.mp hempty] at hread
    simpa [readArray, records, firstLine, dropEmptyLast] using hread

theorem packageRecorded_iff {rootfsMeta p : Text} {ts : List Text} (h : Plain ts)
    (hv : metadataValue rootfsMeta "debian_packages".toList = join ',' ts) (hne : p ≠ [])
    (hp : ',' ∉ p) : PackageRecorded rootfsMeta p ↔ p ∈ ts := by
  rw [PackageRecorded, hv]
  exact infix_join_iff h.2.1 hp hne

/-- What `write_common_metadata` records can be read back: each value, the list of overlays,
and the membership of a package. -/
theorem metadata_round_trip {board boardDescription generatedUtc : Text} {fs : List Field}
    (h : Readable (commonFields board boardDescription generatedUtc ++ fs)) :
    let file := writeCommonMetadata board boardDescription generatedUtc (fs.map Field.line)
    (∀ f ∈ commonFields board boardDescription generatedUtc ++ fs,
      metadataValue file f.key = f.value) ∧
    (∀ store input sel, resolveDebianOverlays store input = .ok sel →
      ⟨"debian_overlays".toList, sel.value⟩ ∈ fs → recordedOverlays file = sel.list) ∧
    (∀ input sel, resolveDebianPackages input = .ok sel →
      ⟨"debian_packages".toList, sel.value⟩ ∈ fs →
      ∀ p, p ≠ [] → ',' ∉ p → (PackageRecorded file p ↔ p ∈ sel.list)) := by
  intro file
  have values : ∀ f ∈ commonFields board boardDescription generatedUtc ++ fs,
      metadataValue file f.key = f.value := fun f hf =>
    metadataValue_writeCommonMetadata h hf
  refine ⟨values, ?_, ?_⟩
  · intro store input sel hsel hf
    obtain ⟨hplain, hval⟩ := resolveDebianOverlays_ok hsel
    have hv := values _ (List.mem_append_right _ hf)
    exact recordedOverlays_of_value hplain (hv.trans (by rw [hval]; rfl))
  · intro input sel hsel hf p hne hp
    obtain ⟨hplain, hval⟩ := resolveDebianPackages_ok hsel
    have hv := values _ (List.mem_append_right _ hf)
    exact packageRecorded_iff hplain (hv.trans (by rw [hval]; rfl)) hne hp

theorem metadata_round_trip_rock5c :
    let file := writeCommonMetadata "rk3588s-rock-5c".toList "Radxa Rock 5C (RK3588S)".toList
      "2026-01-02T03:04:05Z".toList (List.map Field.line
        [⟨"source_manifest".toList, []⟩,
         ⟨"debian_packages".toList, "network-manager,i2c-tools".toList⟩,
         ⟨"debian_overlays".toList, "base,console".toList⟩,
         ⟨"hostname".toList, "a=b c".toList⟩])
    metadataValue file "hostname".toList = "a=b c".toList ∧
    recordedOverlays file = ["base".toList, "console".toList] ∧
    (PackageRecorded file "i2c".toList ↔
      "i2c".toList ∈ ["network-manager".toList, "i2c-tools".toList]) := by
  intro file
  have written : Readable (commonFields "rk3588s-rock-5c".toList
      "Radxa Rock 5C (RK3588S)".toList "2026-01-02T03:04:05Z".toList ++
        [⟨"source_manifest".toList, []⟩,
         ⟨"debian_packages".toList, "network-manager,i2c-tools".toList⟩,
         ⟨"debian_overlays".toList, "base,console".toList⟩,
         ⟨"hostname".toList, "a=b c".toList⟩]) :=
    ⟨by decide +kernel, by decide +kernel, by decide +kernel⟩
  obtain ⟨values, overlays, packages⟩ := metadata_round_trip written
  refine ⟨values ⟨"hostname".toList, "a=b c".toList⟩ (by decide), ?_, ?_⟩
  · exact overlays ⟨[], fun _ => true, fun _ => none, []⟩ " base;console,,base+".toList
      ⟨"base,console".toList, ["base".toList, "console".toList]⟩ (by decide +kernel)
      (by decide +kernel)
  · exact packages "network-manager i2c-tools".toList
      ⟨"network-manager,i2c-tools".toList, ["network-manager".toList, "i2c-tools".toList]⟩
      (by decide +kernel) (by decide +kernel) "i2c".toList (by decide) (by decide)

end DebianSelection
