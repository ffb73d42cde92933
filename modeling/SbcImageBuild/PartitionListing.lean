import SbcImageBuild.ImageVerification

/-!
# The listing of a partition table

What `sgdisk` prints for a disk, and that `verify_image.sh` reads from it what the table says.
-/
namespace PartitionListing

open ShellText BoardProfile ByteStore Delimited DiskGeometry ImageAssembly Words ImageVerification
open OverlayText (commandOutput)

/-- A text that is a field of its own. -/
def Solid (t : Text) : Prop := t ≠ [] ∧ ∀ c ∈ t, c ≠ ' ' ∧ c ≠ '\t' ∧ c ≠ '\n'

instance : DecidablePred Solid := fun t =>
  inferInstanceAs (Decidable (t ≠ [] ∧ ∀ c ∈ t, c ≠ ' ' ∧ c ≠ '\t' ∧ c ≠ '\n'))

/-- What the table does not determine. -/
structure Details where
  code : Text
  unique : Text
  firstAt : Text
  lastAt : Text
  sectors : Text
  flags : Text
  size : Text
  unit : Text

structure Details.Plain (d : Details) : Prop where
  code : '\n' ∉ d.code
  unique : '\n' ∉ d.unique
  firstAt : '\n' ∉ d.firstAt
  lastAt : '\n' ∉ d.lastAt
  sectors : '\n' ∉ d.sectors
  flags : '\n' ∉ d.flags
  size : Solid d.size
  unit : Solid d.unit

def infoLines (q : Partition) (d : Details) : List (Text × Text) :=
  [("Partition GUID code".toList, d.code), ("Partition unique GUID".toList, d.unique),
    ("First sector".toList, (toString q.range.first).toList ++ ' ' :: d.firstAt),
    ("Last sector".toList, (toString q.range.last).toList ++ ' ' :: d.lastAt),
    ("Partition size".toList, d.sectors), ("Attribute flags".toList, d.flags),
    ("Partition name".toList, '\'' :: q.name ++ ['\''])]

def keyed (line : Text × Text) : Text := line.1 ++ ':' :: ' ' :: line.2

/-- The output of `sgdisk --info`. -/
def infoText (q : Partition) (d : Details) : Text := terminate '\n' ((infoLines q d).map keyed)

def padLeft (width : ℕ) (t : Text) : Text := List.replicate (width - t.length) ' ' ++ t

/-- A row of `sgdisk -p`; the size has a width of twelve. -/
def row (q : Partition) (d : Details) : Text :=
  padLeft 4 (toString q.number).toList ++ ' ' :: ' ' ::
    (padLeft 14 (toString q.range.first).toList ++ ' ' :: ' ' ::
      (padLeft 14 (toString q.range.last).toList ++ ' ' :: ' ' :: ' ' ::
        (d.size ++ ' ' :: (d.unit ++ ' ' ::
          (List.replicate (10 - d.size.length - d.unit.length) ' ' ++
            (q.typecode ++ ' ' :: ' ' :: q.name))))))

/-- The documented output for a disk with this partition table. -/
structure Prints (s : Sgdisk) (table : List Partition) (image : Bytes) : Prop where
  verify : s.verify image = true
  info : ∀ q ∈ table, ∃ d : Details, d.Plain ∧ s.info image q.number = infoText q d
  list : ∃ (header : List Text) (details : Partition → Details),
    (∀ line ∈ header, '\n' ∉ line ∧ ∀ q ∈ table, awkField 0 line ≠ (toString q.number).toList) ∧
      (∀ q, (details q).Plain) ∧
      s.list image = terminate '\n' (header ++ table.map fun q => row q (details q))

section Printed

variable {t rest : Text} {table : List Partition} {q : Partition} {d : Details}

theorem Solid.words_cons (h : Solid t) : words ' ' (t ++ ' ' :: rest) = t :: words ' ' rest := by
  have hfree : ' ' ∉ t := fun hmem => (h.2 _ hmem).1 rfl
  rw [words_append_cons]
  simp [words, List.splitOn_eq_singleton hfree, h.1]

theorem words_blanks (n : ℕ) (t : Text) : words ' ' (List.replicate n ' ' ++ t) = words ' ' t := by
  induction n with
  | zero => rfl
  | succ n ih => rw [List.replicate_succ, List.cons_append, words_cons_self, ih]

theorem Solid.padLeft (h : Solid t) (width : ℕ) :
    words ' ' (padLeft width t ++ ' ' :: rest) = t :: words ' ' rest := by
  rw [PartitionListing.padLeft, List.append_assoc, words_blanks, h.words_cons]

/-- Tabs behind the first field do not matter to it. -/
theorem Solid.first (h : Solid t) (rest : Text) : awkField 0 (t ++ ' ' :: rest) = t := by
  have hmap : (t.map fun c => if c = '\t' then ' ' else c) = t :=
    (List.map_congr_left fun c hc => if_neg (h.2 c hc).2.1).trans (List.map_id t)
  rw [awkField, awkFields, List.map_append, hmap, List.map_cons, if_neg (by decide), h.words_cons]
  rfl

theorem digits_of_nat (n : ℕ) :
    (toString n).toList ≠ [] ∧ ∀ c ∈ (toString n).toList, 48 ≤ c.toNat ∧ c.toNat ≤ 57 := by
  have hdigits : (toString n).toList = Nat.toDigits 10 n := Nat.toList_repr
  rw [hdigits]
  refine ⟨Nat.toDigits_ne_nil, fun c hc => ?_⟩
  have hdigit := Nat.isDigit_of_mem_toDigits (by decide) (by decide) hc
  simp only [Char.isDigit, ge_iff_le, Bool.and_eq_true, decide_eq_true_eq] at hdigit
  exact hdigit

/-- The characters of a number: a sign and digits. -/
theorem number_chars (n : ℤ) :
    (toString n).toList ≠ [] ∧
      ∀ c ∈ (toString n).toList, c.toNat = 45 ∨ 48 ≤ c.toNat ∧ c.toNat ≤ 57 := by
  cases n with
  | ofNat n => exact ⟨(digits_of_nat n).1, fun c hc => .inr ((digits_of_nat n).2 c hc)⟩
  | negSucc n =>
    have hsigned : (toString (Int.negSucc n)).toList = '-' :: (toString (n + 1)).toList := by
      simp [toString, Int.repr]
    rw [hsigned]
    refine ⟨List.cons_ne_nil _ _, fun c hc => ?_⟩
    rcases List.mem_cons.mp hc with rfl | hc
    · exact .inl rfl
    · exact .inr ((digits_of_nat (n + 1)).2 c hc)

theorem solid_of_chars {t : Text} (h : t ≠ [] ∧ ∀ c ∈ t, 33 ≤ c.toNat) : Solid t := by
  refine ⟨h.1, fun c hc => ?_⟩
  have hc := h.2 c hc
  refine ⟨?_, ?_, ?_⟩ <;>
  · rintro rfl
    revert hc
    decide

theorem solid_nat (n : ℕ) : Solid (toString n).toList :=
  solid_of_chars ⟨(digits_of_nat n).1, fun c hc => by have := (digits_of_nat n).2 c hc; omega⟩

theorem solid_int (n : ℤ) : Solid (toString n).toList :=
  solid_of_chars ⟨(number_chars n).1, fun c hc => by have := (number_chars n).2 c hc; omega⟩

theorem not_colon_of_number {n : ℤ} : ':' ∉ (toString n).toList := fun h => by
  have hcode := (number_chars n).2 ':' h
  revert hcode
  decide

theorem not_isSpace_number (n : ℤ) (rest : Text) :
    ¬ ((toString n).toList ++ rest).head?.any isSpace := by
  obtain ⟨hne, hchars⟩ := number_chars n
  obtain ⟨c, cs, hcs⟩ := List.exists_cons_of_ne_nil hne
  have hc := hchars c (hcs ▸ List.mem_cons_self)
  have hblank : c ≠ ' ' := fun h => by
    subst h
    revert hc
    decide
  simp only [hcs, List.cons_append, List.head?_cons, Option.any_some, isSpace, Bool.or_eq_true,
    beq_iff_eq, hblank, Bool.and_eq_true, decide_eq_true_eq, false_or]
  omega

/-- The line with a key is found among lines with other keys. -/
theorem find_keyed {ls : List (Text × Text)} (hkeys : ∀ line ∈ ls, ':' ∉ line.1)
    (hdistinct : (ls.map Prod.fst).Nodup) {key value : Text} (h : (key, value) ∈ ls) :
    (ls.map keyed).find? (fun line => line.takeWhile (· ≠ ':') = key) =
      some (keyed (key, value)) := by
  induction ls with
  | nil => exact absurd h List.not_mem_nil
  | cons line ls ih =>
    obtain ⟨hnew, hrest⟩ := List.nodup_cons.mp hdistinct
    have hkey : (keyed line).takeWhile (· ≠ ':') = line.1 :=
      takeWhile_delimiter (hkeys line List.mem_cons_self) _
    rw [List.map_cons, List.find?_cons, hkey]
    rcases List.mem_cons.mp h with heq | hmem
    · subst heq
      rw [decide_eq_true rfl]
    · have hne : line.1 ≠ key := fun heq => hnew (heq ▸ List.mem_map_of_mem (f := Prod.fst) hmem)
      rw [decide_eq_false hne]
      exact ih (fun l hl => hkeys l (List.mem_cons_of_mem line hl)) hrest hmem

theorem partitionField_keyed {ls : List (Text × Text)} (hkeys : ∀ line ∈ ls, ':' ∉ line.1)
    (hfree : Free '\n' (ls.map keyed)) (hdistinct : (ls.map Prod.fst).Nodup) {key value : Text}
    (h : (key, value) ∈ ls) (hvalue : ¬ value.head?.any isSpace) :
    partitionField (terminate '\n' (ls.map keyed)) key = some (value.takeWhile (· ≠ ':')) := by
  have hbehind : (keyed (key, value)).dropWhile (· ≠ ':') = ':' :: ' ' :: value :=
    dropWhile_delimiter (hkeys _ h) _
  rw [partitionField, records_terminate hfree, find_keyed hkeys hdistinct h, Option.map_some,
    hbehind, List.drop_one, List.tail_cons, List.takeWhile_cons_of_pos (by decide),
    List.dropWhile_cons_of_pos (by decide)]
  cases value with
  | nil => rfl
  | cons c value =>
    have hc : ¬ isSpace c := by simpa using hvalue
    by_cases hcolon : c = ':'
    · simp [hcolon]
    · rw [List.takeWhile_cons_of_pos (by simpa using hcolon), List.dropWhile_cons_of_neg hc]

theorem infoLines_keys : ∀ line ∈ infoLines q d, ':' ∉ line.1 := by
  simp only [infoLines, List.forall_mem_cons, List.not_mem_nil, false_implies, implies_true,
    and_true]
  decide

theorem infoLines_distinct : ((infoLines q d).map Prod.fst).Nodup := by
  simp only [infoLines, List.map_cons, List.map_nil]
  decide

theorem infoLines_free (hd : d.Plain) (hname : '\n' ∉ q.name) :
    Free '\n' ((infoLines q d).map keyed) := by
  have hfirst : '\n' ∉ (toString q.range.first).toList := fun h => ((solid_int _).2 _ h).2.2 rfl
  have hlast : '\n' ∉ (toString q.range.last).toList := fun h => ((solid_int _).2 _ h).2.2 rfl
  simp only [infoLines, keyed, List.map_cons, List.map_nil, free_cons, List.mem_append,
    List.mem_cons, List.not_mem_nil, or_false, hd.code, hd.unique, hd.firstAt,
    hd.lastAt, hd.sectors, hd.flags, hname, hfirst, hlast, free_nil, and_true]
  decide

theorem sectorField_info (hd : d.Plain) (hname : '\n' ∉ q.name) {key after : Text} {n : ℤ}
    (h : (key, (toString n).toList ++ ' ' :: after) ∈ infoLines q d) :
    sectorField (infoText q d) key = (toString n).toList := by
  rw [sectorField, infoText, partitionField_keyed infoLines_keys (infoLines_free hd hname)
    infoLines_distinct h (not_isSpace_number n _), Option.elim_some,
    List.takeWhile_append_of_pos (ne_of_free not_colon_of_number),
    List.takeWhile_cons_of_pos (by decide), (solid_int n).first]

theorem unquote_quoted (name : Text) : unquote ('\'' :: name ++ ['\'']) = name := by
  simp [unquote]

theorem partitionName_info (hd : d.Plain) (hname : '\n' ∉ q.name) (hcolon : ':' ∉ q.name) :
    partitionName (infoText q d) = q.name := by
  have hquoted : ∀ c ∈ '\'' :: q.name ++ ['\''], decide (c ≠ ':') = true :=
    ne_of_free (by simp [hcolon])
  have hline : ("Partition name".toList, '\'' :: q.name ++ ['\'']) ∈ infoLines q d := by
    simp [infoLines]
  rw [partitionName, infoText, partitionField_keyed infoLines_keys (infoLines_free hd hname)
    infoLines_distinct hline (by simp [isSpace]), Option.elim_some,
    List.takeWhile_eq_self_iff.mpr hquoted, unquote_quoted]

theorem row_chars (hd : d.Plain) (hcode : Solid q.typecode) (hname : Solid q.name) :
    ∀ c ∈ row q d, c ≠ '\t' ∧ c ≠ '\n' := by
  have hsolid : ∀ {t : Text}, Solid t → ∀ c ∈ t, c ≠ '\t' ∧ c ≠ '\n' := fun ht c hc => (ht.2 c hc).2
  have hblank : ' ' ≠ '\t' ∧ ' ' ≠ '\n' := by decide
  have hblanks : ∀ n, ∀ c ∈ List.replicate n ' ', c ≠ '\t' ∧ c ≠ '\n' := fun n c hc =>
    List.eq_of_mem_replicate hc ▸ hblank
  simp only [row, padLeft, List.forall_mem_append, List.forall_mem_cons]
  exact ⟨⟨hblanks _, hsolid (solid_nat _)⟩, hblank, hblank, ⟨hblanks _, hsolid (solid_int _)⟩,
    hblank, hblank, ⟨hblanks _, hsolid (solid_int _)⟩, hblank, hblank, hblank, hsolid hd.size,
    hblank, hsolid hd.unit, hblank, hblanks _, hsolid hcode, hblank, hblank, hsolid hname⟩

theorem row_fields (hd : d.Plain) (hcode : Solid q.typecode) (hname : Solid q.name) :
    awkFields (row q d) = [(toString q.number).toList, (toString q.range.first).toList,
      (toString q.range.last).toList, d.size, d.unit, q.typecode, q.name] := by
  have htab : (row q d).map (fun c => if c = '\t' then ' ' else c) = row q d :=
    (List.map_congr_left fun c hc => if_neg (row_chars hd hcode hname c hc).1).trans (List.map_id _)
  have hlast : words ' ' q.name = [q.name] := by
    have hfree : ' ' ∉ q.name := fun hmem => (hname.2 _ hmem).1 rfl
    simp [words, List.splitOn_eq_singleton hfree, hname.1]
  rw [awkFields, htab, row, (solid_nat _).padLeft, words_cons_self, (solid_int _).padLeft,
    words_cons_self, (solid_int _).padLeft, words_cons_self, words_cons_self, hd.size.words_cons,
    hd.unit.words_cons, words_blanks, hcode.words_cons, words_cons_self, hlast]

/-- The rows of the other partitions are not printed. -/
theorem filter_rows {details : Partition → Details} (hd : ∀ q, (details q).Plain)
    (hsolid : ∀ q ∈ table, Solid q.typecode ∧ Solid q.name)
    (hnumbers : (table.map fun q => (toString q.number).toList).Nodup) (hq : q ∈ table) :
    ((table.map fun q => row q (details q)).filter fun line =>
      awkField 0 line = (toString q.number).toList) = [row q (details q)] := by
  have hfirst : ∀ r ∈ table, awkField 0 (row r (details r)) = (toString r.number).toList := by
    intro r hr
    rw [awkField, row_fields (hd r) (hsolid r hr).1 (hsolid r hr).2]
    rfl
  induction table with
  | nil => exact absurd hq List.not_mem_nil
  | cons r table ih =>
    obtain ⟨hnew, hrest⟩ := List.nodup_cons.mp hnumbers
    have hbehind : ∀ s ∈ table, s ∈ r :: table := fun s => List.mem_cons_of_mem r
    rw [List.map_cons, List.filter_cons, hfirst r List.mem_cons_self]
    rcases List.mem_cons.mp hq with rfl | hmem
    · rw [if_pos (decide_eq_true rfl)]
      refine congrArg _ (List.filter_eq_nil_iff.mpr fun line hline => ?_)
      obtain ⟨s, hs, rfl⟩ := List.mem_map.mp hline
      rw [hfirst s (hbehind s hs), decide_eq_true_eq]
      exact fun heq => hnew (List.mem_map.mpr ⟨s, hs, heq⟩)
    · have hne : (toString r.number).toList ≠ (toString q.number).toList := fun heq =>
        hnew (List.mem_map.mpr ⟨q, hmem, heq.symm⟩)
      rw [if_neg (by simpa using hne)]
      exact ih (fun s hs => hsolid s (hbehind s hs)) hrest hmem fun s hs => hfirst s (hbehind s hs)

theorem partitionCode_list {header : List Text} {details : Partition → Details}
    (hheader : ∀ line ∈ header, '\n' ∉ line ∧
      ∀ q ∈ table, awkField 0 line ≠ (toString q.number).toList)
    (hd : ∀ q, (details q).Plain) (hsolid : ∀ q ∈ table, Solid q.typecode ∧ Solid q.name)
    (hnumbers : (table.map fun q => (toString q.number).toList).Nodup) (hq : q ∈ table) :
    partitionCode (terminate '\n' (header ++ table.map fun q => row q (details q))) q.number =
      q.typecode := by
  have hfree : Free '\n' (header ++ table.map fun q => row q (details q)) := by
    intro line hline
    rcases List.mem_append.mp hline with hline | hline
    · exact (hheader line hline).1
    · obtain ⟨r, hr, rfl⟩ := List.mem_map.mp hline
      obtain ⟨hcode, hname⟩ := hsolid r hr
      exact fun hmem => (row_chars (hd r) hcode hname _ hmem).2 rfl
  have habove : (header.filter fun line => awkField 0 line = (toString q.number).toList) = [] :=
    List.filter_eq_nil_iff.mpr fun line hline => by simpa using (hheader line hline).2 q hq
  obtain ⟨hcode, hname⟩ := hsolid q hq
  have hfield : awkField 5 (row q (details q)) = q.typecode := by
    rw [awkField, row_fields (hd q) hcode hname]
    rfl
  have hkept : q.typecode.rdropWhile (· = '\n') = q.typecode := by
    rw [List.rdropWhile_eq_self_iff]
    exact fun hne => by simpa using (hcode.2 _ (List.getLast_mem hne)).2.2
  rw [partitionCode, records_terminate hfree, List.filter_append, habove, List.nil_append,
    filter_rows hd hsolid hnumbers hq, List.map_singleton, hfield, commandOutput, terminate_cons,
    terminate_nil]
  rw [List.rdropWhile_concat_pos _ _ _ (by decide), hkept]

/-- The tests on a partition succeed where it is printed. -/
theorem checkPartition_prints {t : Tools} {image : Bytes} {title : String}
    (h : Prints t.sgdisk table image) (hsolid : ∀ q ∈ table, Solid q.typecode ∧ Solid q.name)
    (hnumbers : (table.map fun q => (toString q.number).toList).Nodup) (hq : q ∈ table)
    (hcolon : ':' ∉ q.name) : checkPartition t title image q = .ok () := by
  obtain ⟨d, hd, hinfo⟩ := h.info q hq
  obtain ⟨header, details, hheader, hdetails, hlist⟩ := h.list
  have hname : '\n' ∉ q.name := fun hmem => ((hsolid q hq).2.2 _ hmem).2.2 rfl
  have hcode := partitionCode_list hheader hdetails hsolid hnumbers hq
  have hfirst := sectorField_info hd hname
    (show ("First sector".toList, (toString q.range.first).toList ++ ' ' :: d.firstAt) ∈
      infoLines q d by simp [infoLines])
  have hlast := sectorField_info hd hname
    (show ("Last sector".toList, (toString q.range.last).toList ++ ' ' :: d.lastAt) ∈
      infoLines q d by simp [infoLines])
  simp only [checkPartition, bind_ok, require_ok, hinfo, hlist, hcode, hfirst, hlast,
    partitionName_info hd hname hcolon, and_true, exists_const]

end Printed

section Table

variable {t : Tools} {p : Vars} {a : Artifacts} {l : PartitionLayout} {n : ℕ} {image : Bytes}

theorem table_solid :
    ∀ q ∈ partitionTable p l, (Solid q.typecode ∧ Solid q.name) ∧ ':' ∉ q.name := by
  have hboot : (Solid (bootPartition l).typecode ∧ Solid (bootPartition l).name) ∧
      ':' ∉ (bootPartition l).name := by
    simp only [bootPartition]
    decide
  have hroot : (Solid (rootPartition l).typecode ∧ Solid (rootPartition l).name) ∧
      ':' ∉ (rootPartition l).name := by
    simp only [rootPartition]
    decide
  have hdata : ∀ d e, (Solid (dataPartition d e).typecode ∧ Solid (dataPartition d e).name) ∧
      ':' ∉ (dataPartition d e).name := fun d e => by
    simp only [dataPartition]
    decide
  unfold partitionTable
  split
  · split
    · simpa using ⟨hboot, hroot, hdata _ _⟩
    · simpa using ⟨hboot, hroot⟩
  · simpa using ⟨hboot, hroot⟩

theorem table_numbers :
    ((partitionTable p l).map fun q => (toString q.number).toList).Nodup := by
  unfold partitionTable
  split
  · split
    · simp only [List.map_cons, List.map_nil, bootPartition, rootPartition, dataPartition]
      decide
    · simp only [List.map_cons, List.map_nil, bootPartition, rootPartition]
      decide
  · simp only [List.map_cons, List.map_nil, bootPartition, rootPartition]
    decide

/-- The checks of the partition table succeed on an image that prints it. -/
theorem checkTable_prints {r : BootArtifacts} (h : Checked p n l r)
    (hprints : Prints t.sgdisk (partitionTable p l) image)
    (hsize : image.length = decimal p.imageSizeMib * mib) : checkTable t p a l image = .ok () := by
  have hcheck : ∀ title, ∀ q ∈ partitionTable p l, checkPartition t title image q = .ok () :=
    fun title q hq => checkPartition_prints hprints (fun q hq => (table_solid q hq).1)
      table_numbers hq (table_solid q hq).2
  have hlength : (image.length : ℤ) = decimal p.imageSizeMib * 1024 * 1024 := by
    rw [hsize, mib]
    omega
  have hdata : checkDataPartition t p l image = .ok () := by
    rw [checkDataPartition]
    by_cases hm : p.rootfsMode = roOverlay
    · obtain ⟨d, e, hd, he, -⟩ := h.overlay_room hm
      rw [if_pos hm, hd, he]
      exact hcheck _ _ (by simp [partitionTable_overlay hm hd he])
    · rw [if_neg hm]
  have hboot : bootPartition l ∈ partitionTable p l := by
    unfold partitionTable
    split
    · split <;> exact List.mem_cons_self
    · exact List.mem_cons_self
  have hroot : rootPartition l ∈ partitionTable p l := by
    unfold partitionTable
    split
    · split <;> exact List.mem_cons_of_mem _ List.mem_cons_self
    · exact List.mem_cons_of_mem _ List.mem_cons_self
  simp only [checkTable, bind_ok, evaluate_of_positive h.accepted.imageSize, Except.ok.injEq,
    exists_eq_left', require_ok, hlength, hprints.verify, hcheck _ _ hboot, hcheck _ _ hroot,
    hdata, and_self, exists_const]

end Table

end PartitionListing
