import SbcImageBuild.Foundation.FileTree
import Mathlib.Data.List.DropRight

/-!
# Path texts

Absolute paths as a command prints them, what a command substitution leaves of the output, and
comparing the texts instead of the names.
-/
namespace PathText

open ShellText FileTree

/-- Each name behind a slash. -/
def spell (l : Loc) : Text := l.flatMap fun n => '/' :: n

/-- An absolute path without empty components. -/
def printed (l : Loc) : Text := if l = [] then ['/'] else spell l

/-- A command substitution drops the newlines at the end of the output. -/
def substituted (output : Text) : Text := output.rdropWhile (· = '\n')

/-- The strict order of locations: `l` lies below `p`. -/
def Below (p l : Loc) : Prop := p <+: l ∧ p ≠ l

instance (p l : Loc) : Decidable (Below p l) := inferInstanceAs (Decidable (_ ∧ _))

def SlashFree (l : Loc) : Prop := ∀ n ∈ l, '/' ∉ n

@[simp] theorem spell_nil : spell [] = [] := rfl

@[simp] theorem spell_cons (n : Text) (l : Loc) : spell (n :: l) = '/' :: (n ++ spell l) := rfl

theorem spell_append (p q : Loc) : spell (p ++ q) = spell p ++ spell q := by
  simp [spell]

theorem below_nil_iff {l : Loc} : Below [] l ↔ l ≠ [] :=
  ⟨fun h heq => h.2 heq.symm, fun h => ⟨List.nil_prefix, h.symm⟩⟩

theorem not_below_nil (p : Loc) : ¬ Below p [] := fun h => h.2 (List.prefix_nil.mp h.1)

theorem below_cons_cons {p q : Loc} {m n : Text} : Below (m :: p) (n :: q) ↔ m = n ∧ Below p q := by
  constructor
  · rintro ⟨hpre, hne⟩
    obtain ⟨rfl, hrest⟩ := List.cons_prefix_cons.mp hpre
    exact ⟨rfl, hrest, fun heq => hne (heq ▸ rfl)⟩
  · rintro ⟨rfl, hpre, hne⟩
    exact ⟨List.cons_prefix_cons.mpr ⟨rfl, hpre⟩, fun heq => hne (List.cons.inj heq).2⟩

theorem below_iff_exists {p l : Loc} : Below p l ↔ ∃ r, r ≠ [] ∧ l = p ++ r := by
  constructor
  · rintro ⟨⟨r, rfl⟩, hne⟩
    exact ⟨r, fun hr => hne (by simp [hr]), rfl⟩
  · rintro ⟨r, hr, rfl⟩
    exact ⟨List.prefix_append p r, fun heq => hr (by simpa using heq)⟩

/-- Two names in front of slashes, or of nothing, are compared as a whole. -/
theorem name_prefix_iff {m n x y : Text} (hm : '/' ∉ m) (hn : '/' ∉ n)
    (hy : y = [] ∨ y.head? = some '/') :
    m ++ '/' :: x <+: n ++ y ↔ m = n ∧ '/' :: x <+: y := by
  induction m generalizing n with
  | nil =>
    cases n with
    | nil => simp
    | cons c n =>
      have hc : '/' ≠ c := fun h => hn (h ▸ List.mem_cons_self)
      simp [hc]
  | cons b m ih =>
    have hb : b ≠ '/' := fun h => hm (h ▸ List.mem_cons_self)
    cases n with
    | nil =>
      rcases hy with rfl | hy
      · simp
      · obtain ⟨z, rfl⟩ := List.head?_eq_some_iff.mp hy
        simp [hb]
    | cons c n =>
      rw [List.cons_append, List.cons_append, List.cons_prefix_cons,
        ih (fun h => hm (List.mem_cons_of_mem b h)) (fun h => hn (List.mem_cons_of_mem c h)),
        List.cons.injEq, and_assoc]

/-- The pattern `path/*` matches the texts of the locations below. -/
theorem spell_prefix_iff {p l : Loc} (hp : SlashFree p) (hl : SlashFree l) :
    spell p ++ ['/'] <+: spell l ↔ Below p l := by
  induction p generalizing l with
  | nil =>
    cases l with
    | nil => simp [not_below_nil]
    | cons n l => simp [below_nil_iff]
  | cons m p ih =>
    cases l with
    | nil => simp [not_below_nil]
    | cons n l =>
      have hrest : spell l = [] ∨ (spell l).head? = some '/' := by
        cases l with
        | nil => exact .inl rfl
        | cons k l => exact .inr rfl
      have hp' : SlashFree p := fun k hk => hp k (List.mem_cons_of_mem m hk)
      have hl' : SlashFree l := fun k hk => hl k (List.mem_cons_of_mem n hk)
      obtain ⟨x, hx⟩ : ∃ x, spell p ++ ['/'] = '/' :: x := by
        cases p with
        | nil => exact ⟨[], rfl⟩
        | cons k p => exact ⟨_, rfl⟩
      rw [below_cons_cons, ← ih hp' hl', spell_cons, spell_cons, List.cons_append,
        List.cons_prefix_cons, List.append_assoc, hx,
        name_prefix_iff (hp m List.mem_cons_self) (hl n List.mem_cons_self) hrest]
      simp

theorem components_spell {l : Loc} (hl : l ≠ []) (h : SlashFree l) :
    components (spell l) = [] :: l := by
  have htail : ∀ {l : Loc} {n : Text}, '/' ∉ n → SlashFree l →
      components (n ++ spell l) = n :: l := by
    intro l
    induction l with
    | nil =>
      intro n hn _
      rw [spell_nil, List.append_nil]
      exact List.splitOn_eq_singleton hn
    | cons m l ih =>
      intro n hn hml
      have hrest := ih (hml m List.mem_cons_self) fun k hk => hml k (List.mem_cons_of_mem m hk)
      rw [components] at hrest ⊢
      rw [spell_cons, List.splitOn_append_cons_self_of_not_mem hn, hrest]
  obtain ⟨n, l, rfl⟩ := List.exists_cons_of_ne_nil hl
  have hrest := htail (h n List.mem_cons_self) fun k hk => h k (List.mem_cons_of_mem n hk)
  have hslash : spell (n :: l) = [] ++ '/' :: (n ++ spell l) := rfl
  rw [components] at hrest ⊢
  rw [hslash, List.splitOn_append_cons_self, hrest]
  rfl

/-- The names that are left when the printed path has gone through a substitution. -/
def shown (l : Loc) : Loc :=
  match l.getLast? with
  | none => [[]]
  | some n => l.dropLast ++ [n.rdropWhile (· = '\n')]

theorem shown_concat (l : Loc) (n : Text) :
    shown (l ++ [n]) = l ++ [n.rdropWhile (· = '\n')] := by
  simp [shown]

/-- What is dropped at the end does not reach past an element that stays. -/
theorem rdropWhile_append_cons {p : Char → Bool} {c : Char} (hc : ¬ p c) (a b : Text) :
    (a ++ c :: b).rdropWhile p = a ++ c :: b.rdropWhile p := by
  induction b using List.reverseRecOn with
  | nil => exact List.rdropWhile_concat_neg p a c hc
  | append_singleton b d ih =>
    have happ : a ++ c :: (b ++ [d]) = a ++ c :: b ++ [d] := by simp
    rw [happ]
    by_cases hd : p d
    · rw [List.rdropWhile_concat_pos p _ d hd, List.rdropWhile_concat_pos p b d hd, ih]
    · rw [List.rdropWhile_concat_neg p _ d hd, List.rdropWhile_concat_neg p b d hd, happ]

theorem substituted_printed (l : Loc) : substituted (printed l ++ ['\n']) = spell (shown l) := by
  rcases List.eq_nil_or_concat l with rfl | ⟨xs, n, rfl⟩
  · rfl
  · rw [List.concat_eq_append, shown_concat, spell_append, printed, if_neg (by simp),
      spell_append, substituted, List.append_assoc]
    have hname : spell [n] ++ ['\n'] = '/' :: (n ++ ['\n']) := by simp
    rw [hname, rdropWhile_append_cons (by decide), List.rdropWhile_concat_pos _ _ _ (by decide)]
    simp

theorem shown_slashFree {l : Loc} (h : SlashFree l) : SlashFree (shown l) := by
  rcases List.eq_nil_or_concat l with rfl | ⟨xs, n, rfl⟩
  · simp [SlashFree, shown]
  · rw [List.concat_eq_append] at h ⊢
    rw [shown_concat]
    intro k hk
    rcases List.mem_append.mp hk with hk | hk
    · exact h k (List.mem_append_left _ hk)
    · obtain rfl := List.mem_singleton.mp hk
      intro hslash
      exact h n (by simp) ((List.rdropWhile_prefix _ n).subset hslash)

/-- A substituted path against the pattern of another one. -/
theorem substituted_prefix_iff {p l : Loc} (hp : SlashFree p) (hl : SlashFree l) :
    substituted (printed p ++ ['\n']) ++ ['/'] <+: substituted (printed l ++ ['\n']) ↔
      Below (shown p) (shown l) := by
  rw [substituted_printed, substituted_printed,
    spell_prefix_iff (shown_slashFree hp) (shown_slashFree hl)]

theorem shown_length {l : Loc} (hl : l ≠ []) : (shown l).length = l.length := by
  obtain ⟨xs, n, rfl⟩ := (List.eq_nil_or_concat l).resolve_left hl
  simp [shown]

theorem shown_ne_nil (l : Loc) : shown l ≠ [] := by
  rcases List.eq_nil_or_concat l with rfl | ⟨xs, n, rfl⟩
  · simp [shown]
  · simp [shown]

def EndsInNewline (l : Loc) : Prop := ∃ n ∈ l.getLast?, n.getLast? = some '\n'

instance (l : Loc) : Decidable (EndsInNewline l) :=
  inferInstanceAs (Decidable (∃ n ∈ l.getLast?, _))

theorem shown_eq_self_iff {l : Loc} (hl : l ≠ []) : shown l = l ↔ ¬ EndsInNewline l := by
  rcases List.eq_nil_or_concat l with rfl | ⟨xs, n, rfl⟩
  · exact absurd rfl hl
  · rw [List.concat_eq_append, shown_concat, List.append_cancel_left_eq, List.cons.injEq,
      List.rdropWhile_eq_self_iff]
    simp only [and_true, EndsInNewline, List.getLast?_concat, Option.mem_some_iff, exists_eq_left',
      decide_eq_true_eq]
    rcases List.eq_nil_or_concat n with rfl | ⟨m, c, rfl⟩
    · simp
    · simp

/-- Dropping newlines at the end of a location moves it only within its directory. -/
theorem below_shown_iff {p l : Loc} (hp : p ≠ []) : Below p (shown l) ↔ Below p l := by
  rcases List.eq_nil_or_concat l with rfl | ⟨xs, n, rfl⟩
  · refine iff_of_false ?_ (not_below_nil p)
    rintro ⟨hpre, hne⟩
    obtain ⟨m, p, rfl⟩ := List.exists_cons_of_ne_nil hp
    obtain ⟨rfl, hnil⟩ := List.cons_prefix_cons.mp hpre
    exact hne (by rw [List.prefix_nil.mp hnil]; rfl)
  · rw [List.concat_eq_append, shown_concat]
    have hfront : ∀ m, Below p (xs ++ [m]) ↔ p <+: xs := by
      intro m
      rw [Below, List.prefix_concat_iff]
      constructor
      · rintro ⟨heq | hpre, hne⟩
        · exact absurd heq hne
        · exact hpre
      · intro hpre
        refine ⟨.inr hpre, ?_⟩
        rintro rfl
        exact not_child_prefix xs m hpre
    rw [hfront, hfront]

end PathText
