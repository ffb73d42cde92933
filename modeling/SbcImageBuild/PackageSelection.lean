import SbcImageBuild.CommaList

/-!
# Package selection

What `resolve_debian_packages` makes of a list of exact Debian package names.
-/
namespace PackageSelection

open ShellText Delimited DebianSelection CommaList

def isNameStart (c : Char) : Bool := ('a' ≤ c && c ≤ 'z') || isDigit c

def isNameChar (c : Char) : Bool := isNameStart c || c ∈ ['+', '-', '.']

/-- A valid package name that the resolver gives no meaning of its own. -/
structure ExactName (n : Text) : Prop where
  length : 2 ≤ n.length
  start : n.head?.any isNameStart
  chars : ∀ c ∈ n, isNameChar c
  sentinel : n ∉ packageOptOuts
  rejected : n ∉ featureAliases ∧ n ≠ "networkmanager".toList

instance : DecidablePred ExactName := fun n =>
  decidable_of_iff
    (2 ≤ n.length ∧ n.head?.any isNameStart ∧ (∀ c ∈ n, isNameChar c) ∧
      n ∉ packageOptOuts ∧ n ∉ featureAliases ∧ n ≠ "networkmanager".toList)
    ⟨fun ⟨h₁, h₂, h₃, h₄, h₅⟩ => ⟨h₁, h₂, h₃, h₄, h₅⟩,
      fun h => ⟨h.length, h.start, h.chars, h.sentinel, h.rejected⟩⟩

/-- Between two names there are commas or spaces. -/
def IsGap (s : Text) : Prop := s ≠ [] ∧ ∀ c ∈ s, c = ',' ∨ c = ' '

instance : DecidablePred IsGap := fun s =>
  inferInstanceAs (Decidable (s ≠ [] ∧ ∀ c ∈ s, c = ',' ∨ c = ' '))

/-- The first name, and the others behind their gaps. -/
def listing (first : Text) (rest : List (Text × Text)) : Text :=
  first ++ rest.flatMap fun p => p.1 ++ p.2

def names (first : Text) (rest : List (Text × Text)) : List Text := first :: rest.map Prod.snd

theorem IsGap.separates {s : Text} (h : IsGap s) (a b : Text) :
    tokens (a ++ (s ++ b)) = tokens a ++ tokens b := by
  obtain ⟨hne, hall⟩ := h
  have hsep : ∀ c ∈ s, isSeparator c := by
    intro c hc
    rcases hall c hc with rfl | rfl <;> rfl
  have hfront : ∀ s : Text, (∀ c ∈ s, isSeparator c) → tokens (s ++ b) = tokens b := by
    intro s hs
    induction s with
    | nil => rfl
    | cons c s ih =>
      have hcons := tokens_append_separator [] (s ++ b) (hs c List.mem_cons_self)
      rw [ih fun d hd => hs d (List.mem_cons_of_mem c hd)] at hcons
      exact hcons
  obtain ⟨c, s, rfl⟩ := List.exists_cons_of_ne_nil hne
  rw [List.cons_append, tokens_append_separator a (s ++ b) (hsep c List.mem_cons_self),
    hfront s fun d hd => hsep d (List.mem_cons_of_mem c hd)]

theorem tokens_listing {first : Text} {rest : List (Text × Text)} (h : ∀ p ∈ rest, IsGap p.1) :
    tokens (listing first rest) = (names first rest).flatMap tokens := by
  induction rest generalizing first with
  | nil => simp [listing, names]
  | cons p rest ih =>
    have hrest : ∀ q ∈ rest, IsGap q.1 := fun q hq => h q (List.mem_cons_of_mem p hq)
    calc tokens (listing first (p :: rest))
        = tokens (first ++ (p.1 ++ listing p.2 rest)) := by simp [listing]
      _ = tokens first ++ tokens (listing p.2 rest) :=
        (h p List.mem_cons_self).separates first _
      _ = (names first (p :: rest)).flatMap tokens := by rw [ih hrest]; simp [names]

theorem ExactName.nonempty {n : Text} (h : ExactName n) : n ≠ [] := by
  rintro rfl
  exact absurd h.length (by decide)

theorem le_toNat {a c : Char} (h : a ≤ c) : a.toNat ≤ c.toNat := UInt32.le_iff_toNat_le.mp h

/-- The separator that package names may contain. -/
theorem separator_of_isNameChar {c : Char} (hn : isNameChar c) (hs : isSeparator c) : c = '+' := by
  simp only [isSeparator, Bool.or_eq_true, beq_iff_eq] at hs
  rcases hs with ((hspace | rfl) | rfl) | rfl
  · have hsmall : c.toNat ≤ 32 := by
      simp only [isSpace, Bool.or_eq_true, beq_iff_eq, Bool.and_eq_true,
        decide_eq_true_eq] at hspace
      rcases hspace with rfl | ⟨-, hle⟩
      · exact le_refl 32
      · omega
    simp only [isNameChar, isNameStart, isDigit, Bool.or_eq_true, Bool.and_eq_true,
      decide_eq_true_eq] at hn
    rcases hn with (⟨hlow, -⟩ | ⟨hlow, -⟩) | hmark
    · have hle := le_toNat hlow
      have ha : 'a'.toNat = 97 := rfl
      omega
    · have hle := le_toNat hlow
      have hzero : '0'.toNat = 48 := rfl
      omega
    · have hmarks : ∀ d ∈ ['+', '-', '.'], 32 < d.toNat := by decide
      have hlarge := hmarks c hmark
      omega
  · rfl
  · cases hn
  · cases hn

theorem isPackageChar_of_isNameChar {c : Char} (h : isNameChar c) : isPackageChar c := by
  simp only [isNameChar, isNameStart, Bool.or_eq_true, decide_eq_true_eq] at h
  rcases h with (h | h) | h
  · simp [isPackageChar, h]
  · simp [isPackageChar, h]
  · have hmarks : ∀ d ∈ ['+', '-', '.'], isPackageChar d := by decide
    exact hmarks c h

theorem tokens_name {n : Text} (h : ExactName n) (hplus : '+' ∉ n) : tokens n = [n] := by
  apply tokens_token h.nonempty
  intro c hc hsep
  obtain rfl := separator_of_isNameChar (h.chars c hc) hsep
  exact hplus hc

theorem checkPackage_name {n : Text} (h : ExactName n) : checkPackage n = .ok () := by
  have hchars : n.all isPackageChar :=
    List.all_eq_true.mpr fun c hc => isPackageChar_of_isNameChar (h.chars c hc)
  rw [checkPackage, if_neg h.rejected.1, if_neg h.rejected.2, if_pos hchars]

/-- A name that is looked up as a whole list does not opt out. -/
theorem selectedPackages_names {first : Text} {rest : List (Text × Text)}
    (hnames : ∀ n ∈ names first rest, ExactName n)
    (htokens : tokens (listing first rest) = names first rest) :
    selectedPackages (listing first rest) = names first rest := by
  have hread := readArray_normalizeCommaList (listing first rest)
  rw [selectedPackages, if_neg, htokens]
  intro hout
  have hself : ∀ o ∈ packageOptOuts, readArray ',' o = [o] := by decide
  rw [hself _ hout, htokens] at hread
  apply (hnames _ _).sentinel hout
  rw [← hread]
  exact List.mem_singleton_self _

theorem flatMap_tokens {ns : List Text} (h : ∀ n ∈ ns, tokens n = [n]) :
    ns.flatMap tokens = ns := by
  induction ns with
  | nil => rfl
  | cons n ns ih =>
    rw [List.flatMap_cons, h n List.mem_cons_self, ih fun m hm => h m (List.mem_cons_of_mem n hm)]
    rfl

/-- Exact names survive the resolver where none of them contains a plus sign. -/
theorem exact_names_iff {first : Text} {rest : List (Text × Text)}
    (hnames : ∀ n ∈ names first rest, ExactName n) (hgaps : ∀ p ∈ rest, IsGap p.1) :
    (∃ sel, resolveDebianPackages (listing first rest) = .ok sel ∧
        sel.list = (names first rest).eraseDups) ↔
      ∀ n ∈ names first rest, '+' ∉ n := by
  constructor
  · rintro ⟨sel, hok, hlist⟩ n hn hplus
    obtain ⟨-, rfl⟩ := resolveDebianPackages_ok_iff.mp hok
    have hmem : n ∈ (selectedPackages (listing first rest)).eraseDups := by
      have hkept := List.mem_eraseDups.mpr hn
      rwa [← hlist] at hkept
    have htoken := selectedPackages_subset (List.mem_eraseDups.mp hmem)
    exact not_separator_of_mem_tokens htoken hplus rfl
  · intro hplus
    have htokens : tokens (listing first rest) = names first rest := by
      rw [tokens_listing hgaps]
      exact flatMap_tokens fun n hn => tokens_name (hnames n hn) (hplus n hn)
    have hselected := selectedPackages_names hnames htokens
    refine ⟨_, resolveDebianPackages_ok_iff.mpr ⟨?_, rfl⟩, ?_⟩
    · intro p hp
      rw [hselected] at hp
      exact checkPackage_name (hnames p hp)
    · rw [hselected]
      rfl

theorem exact_names_iff_repeated :
    ∃ sel, resolveDebianPackages "network-manager,i2c-tools network-manager".toList = .ok sel ∧
      sel.list = ["network-manager".toList, "i2c-tools".toList] := by
  have hnames : ∀ n ∈ names "network-manager".toList
      [(",".toList, "i2c-tools".toList), (" ".toList, "network-manager".toList)],
      ExactName n := by
    decide +kernel
  exact (exact_names_iff hnames (by decide)).mpr (by decide)

/-- The compiler package loses its plus signs. -/
theorem exact_names_altered :
    ¬ ∀ first rest, (∀ n ∈ names first rest, ExactName n) → (∀ p ∈ rest, IsGap p.1) →
      ∃ sel, resolveDebianPackages (listing first rest) = .ok sel ∧
        sel.list = (names first rest).eraseDups := by
  intro h
  obtain ⟨sel, hok, hlist⟩ := h "g++".toList [] (by decide +kernel) (by decide)
  have hcode : resolveDebianPackages (listing "g++".toList []) = .ok ⟨['g'], [['g']]⟩ := by
    decide +kernel
  rw [hcode] at hok
  cases hok
  exact absurd hlist (by decide)

end PackageSelection
