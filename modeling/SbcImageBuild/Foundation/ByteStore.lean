import Mathlib.Data.List.Basic
import Mathlib.Tactic.Common

/-!
# Byte sequences and the block copy command

A file is the list of its bytes. `dd` copies a file block by block to an offset of another;
in sparse mode an all-zero block is skipped over instead of written.
-/
namespace ByteStore

abbrev Bytes := List UInt8

instance (priority := high) decidableAllBytes {p : UInt8 → Prop} [DecidablePred p] (d : Bytes) :
    Decidable (∀ b ∈ d, p b) := List.decidableBAll p d

def zeros (n : ℕ) : Bytes := List.replicate n 0

/-- Up to `n` bytes from offset `off`. -/
def slice (d : Bytes) (off n : ℕ) : Bytes := (d.drop off).take n

/-- The file extended with zeros to at least `n` bytes. -/
def pad (d : Bytes) (n : ℕ) : Bytes := d ++ zeros (n - d.length)

/-- A write at an offset; a gap behind the end of the file reads as zeros. -/
def writeAt (d : Bytes) (off : ℕ) (data : Bytes) : Bytes :=
  (pad d off).take off ++ data ++ d.drop (off + data.length)

@[simp] theorem zeros_length (n : ℕ) : (zeros n).length = n := by simp [zeros]

theorem slice_zeros {n off m : ℕ} (h : off + m ≤ n) : slice (zeros n) off m = zeros m := by
  simp only [slice, zeros, List.drop_replicate, List.take_replicate]
  congr 1
  omega

theorem pad_length (d : Bytes) (n : ℕ) : (pad d n).length = max d.length n := by
  simp only [pad, List.length_append, zeros_length]
  omega

theorem pad_of_le {d : Bytes} {n : ℕ} (h : n ≤ d.length) : pad d n = d := by
  rw [pad, Nat.sub_eq_zero_of_le h]
  exact List.append_nil d

theorem pad_getElem? (d : Bytes) (n i : ℕ) :
    (pad d n)[i]? = if i < d.length then d[i]? else if i < n then some 0 else none := by
  rw [pad, List.getElem?_append]
  split
  · rfl
  · rw [zeros, List.getElem?_replicate]
    grind

/-- The bytes of a file after a write, offset by offset. -/
theorem writeAt_getElem? (d : Bytes) (off : ℕ) (data : Bytes) (i : ℕ) :
    (writeAt d off data)[i]? =
      if i < off then (pad d off)[i]?
      else if i < off + data.length then data[i - off]? else d[i]? := by
  have hlen : ((pad d off).take off).length = off := by
    rw [List.length_take, pad_length]
    omega
  rw [writeAt, List.append_assoc, List.getElem?_append, hlen]
  split
  · rw [List.getElem?_take, if_pos ‹_›]
  · rw [List.getElem?_append]
    split
    · rw [if_pos (by omega)]
    · rw [if_neg (by omega), List.getElem?_drop]
      congr 1
      omega

theorem slice_getElem? (d : Bytes) (off n i : ℕ) :
    (slice d off n)[i]? = if i < n then d[off + i]? else none := by
  rw [slice, List.getElem?_take, List.getElem?_drop]

theorem writeAt_length {d : Bytes} {off : ℕ} {data : Bytes} (h : off + data.length ≤ d.length) :
    (writeAt d off data).length = d.length := by
  simp only [writeAt, List.length_append, List.length_take, List.length_drop, pad_length]
  omega

/-- What was written is read back. -/
theorem slice_writeAt (d : Bytes) (off : ℕ) (data : Bytes) :
    slice (writeAt d off data) off data.length = data := by
  refine List.ext_getElem? fun i => ?_
  rw [slice_getElem?, writeAt_getElem?]
  grind

/-- A range that the write does not touch keeps its bytes. -/
theorem slice_writeAt_frame {d : Bytes} {off : ℕ} {data : Bytes} {o n : ℕ}
    (hin : off ≤ d.length) (h : o + n ≤ off ∨ off + data.length ≤ o) :
    slice (writeAt d off data) o n = slice d o n := by
  refine List.ext_getElem? fun i => ?_
  rw [slice_getElem?, slice_getElem?, writeAt_getElem?, pad_of_le hin]
  grind

theorem writeAt_append (d : Bytes) (off : ℕ) (a b : Bytes) :
    writeAt (writeAt d off a) (off + a.length) b = writeAt d off (a ++ b) := by
  refine List.ext_getElem? fun i => ?_
  have hlen : off + a.length ≤ (writeAt d off a).length := by
    simp only [writeAt, List.length_append, List.length_take, pad_length]
    omega
  rw [writeAt_getElem?, pad_of_le hlen, writeAt_getElem? d off a, writeAt_getElem? d off (a ++ b),
    List.getElem?_append, List.length_append]
  grind

theorem writeAt_nil (d : Bytes) (off : ℕ) : writeAt d off [] = pad d off := by
  refine List.ext_getElem? fun i => ?_
  rw [writeAt_getElem?, pad_getElem?]
  grind

theorem writeAt_pad (d : Bytes) (off : ℕ) (data : Bytes) :
    writeAt (pad d off) off data = writeAt d off data := by
  refine List.ext_getElem? fun i => ?_
  rw [writeAt_getElem?, writeAt_getElem?, pad_of_le (by rw [pad_length]; omega), pad_getElem?]
  grind

theorem writeAt_empty_file (data : Bytes) : writeAt [] 0 data = data := by
  simp [writeAt]

/-! ## Copying in blocks -/

/-- The input as it is read: full blocks and a shorter last one. -/
def blocks (bs : ℕ) (data : Bytes) : List Bytes :=
  (List.range ((data.length + bs - 1) / bs)).map fun k => slice data (k * bs) bs

structure DdOptions where
  bs : ℕ
  seek : ℕ := 0
  sparse : Bool := false
  notrunc : Bool := false

/-- The output file, the position in it, and whether the last block was skipped over. -/
structure Output where
  file : Bytes
  offset : ℕ
  lastSeek : Bool

def writeBlock (sparse : Bool) (o : Output) (block : Bytes) : Output :=
  if sparse ∧ ∀ b ∈ block, b = 0 then ⟨o.file, o.offset + block.length, true⟩
  else ⟨writeAt o.file o.offset block, o.offset + block.length, false⟩

def openOutput (o : DdOptions) (file : Bytes) : Bytes :=
  if o.notrunc then file else (pad file (o.seek * o.bs)).take (o.seek * o.bs)

/-- The output file of `dd`. A skipped block at the end extends the file up to the position. -/
def dd (o : DdOptions) (input output : Bytes) : Bytes :=
  let r := (blocks o.bs input).foldl (writeBlock o.sparse)
    ⟨openOutput o output, o.seek * o.bs, false⟩
  if r.lastSeek then pad r.file r.offset else r.file

theorem blocks_prefix (bs : ℕ) (data : Bytes) (n : ℕ) :
    ((List.range n).map fun k => slice data (k * bs) bs).flatten = data.take (n * bs) := by
  induction n with
  | zero => simp
  | succ n ih =>
    rw [List.range_succ, List.map_append, List.flatten_append, ih, List.map_singleton,
      List.flatten_singleton, Nat.succ_mul, slice, List.take_add]

theorem blocks_flatten {bs : ℕ} (h : 0 < bs) (data : Bytes) : (blocks bs data).flatten = data := by
  rw [blocks, blocks_prefix, List.take_of_length_le]
  have hdiv := Nat.lt_mul_div_succ (data.length + bs - 1) h
  rw [Nat.mul_succ, Nat.mul_comm] at hdiv
  omega

/-- The file holds only zeros in a range, as far as it reaches into it. -/
def ZeroRange (d : Bytes) (off n : ℕ) : Prop :=
  ∀ i, off ≤ i → i < off + n → ∀ x ∈ d[i]?, x = 0

theorem zeroRange_slice {d : Bytes} {off n : ℕ} (h : slice d off n = zeros n) :
    ZeroRange d off n := by
  intro i hlow hhigh x hx
  have hi := congrArg (fun l => l[i - off]?) h
  simp only [slice_getElem?, zeros, List.getElem?_replicate] at hi
  rw [if_pos (by omega), if_pos (by omega), show off + (i - off) = i by omega] at hi
  rw [hi] at hx
  exact (Option.some.inj hx).symm

/-- Skipping an all-zero block over zeros has the effect of writing it. -/
theorem pad_of_zeros {d block : Bytes} {off : ℕ} (hz : ZeroRange d off block.length)
    (hb : ∀ b ∈ block, b = 0) : pad d (off + block.length) = writeAt d off block := by
  refine List.ext_getElem? fun i => ?_
  rw [pad_getElem?, writeAt_getElem?, pad_getElem?]
  have hblock : i - off < block.length → block[i - off]? = some 0 := by
    intro hlt
    rw [List.getElem?_eq_getElem hlt, hb _ (List.getElem_mem hlt)]
  have hd : off ≤ i → i < off + block.length → i < d.length → d[i]? = some 0 := by
    intro hlow hhigh hlt
    have hget := List.getElem?_eq_getElem hlt
    rw [hget, hz i hlow hhigh _ hget]
  grind

/-- One block, written or skipped, has the effect of a write up to the new position. -/
theorem writeBlock_spec (sparse : Bool) (o : Output) (block : Bytes)
    (hz : sparse → ZeroRange o.file o.offset block.length) :
    pad (writeBlock sparse o block).file (writeBlock sparse o block).offset =
      writeAt o.file o.offset block ∧
    (writeBlock sparse o block).offset = o.offset + block.length ∧
    (∀ i, o.offset + block.length ≤ i → (writeBlock sparse o block).file[i]? = o.file[i]?) ∧
    ((writeBlock sparse o block).lastSeek = false →
      (writeBlock sparse o block).offset ≤ (writeBlock sparse o block).file.length) := by
  unfold writeBlock
  split
  · rename_i hskip
    exact ⟨pad_of_zeros (hz hskip.1) hskip.2, rfl, fun _ _ => rfl, fun h => by cases h⟩
  · have hlen : o.offset + block.length ≤ (writeAt o.file o.offset block).length := by
      simp only [writeAt, List.length_append, List.length_take, pad_length]
      omega
    refine ⟨pad_of_le hlen, rfl, fun i hi => ?_, fun _ => hlen⟩
    rw [writeAt_getElem?, if_neg (by omega), if_neg (by omega)]

/-- A run of blocks has the effect of one write of all of them. -/
theorem writeBlocks_spec (sparse : Bool) (bs : List Bytes) (o : Output)
    (hz : sparse → ZeroRange o.file o.offset bs.flatten.length)
    (hlast : o.lastSeek = false → o.offset ≤ o.file.length) :
    let r := bs.foldl (writeBlock sparse) o
    pad r.file r.offset = writeAt o.file o.offset bs.flatten ∧
    (r.lastSeek = false → r.offset ≤ r.file.length) := by
  induction bs generalizing o with
  | nil => exact ⟨(writeAt_nil o.file o.offset).symm, hlast⟩
  | cons b bs ih =>
    rw [List.flatten_cons, List.length_append] at hz
    obtain ⟨hpad, hoff, hframe, hend⟩ := writeBlock_spec sparse o b
      (fun hs i h₁ h₂ => hz hs i h₁ (by omega))
    have hrest := ih (writeBlock sparse o b) (fun hs i h₁ h₂ x hx => by
      rw [hoff] at h₁ h₂
      exact hz hs i (by omega) (by omega) x (hframe i h₁ ▸ hx)) hend
    refine ⟨?_, hrest.2⟩
    calc pad _ _ = writeAt (writeBlock sparse o b).file (writeBlock sparse o b).offset
          bs.flatten := hrest.1
      _ = writeAt (writeAt o.file o.offset b) (o.offset + b.length) bs.flatten := by
        rw [← writeAt_pad, hpad, hoff]
      _ = writeAt o.file o.offset (b :: bs).flatten := by
        rw [writeAt_append, List.flatten_cons]

theorem dd_spec {o : DdOptions} {input output : Bytes} (hbs : 0 < o.bs)
    (hz : o.sparse → ZeroRange (openOutput o output) (o.seek * o.bs) input.length)
    (hseek : o.seek * o.bs ≤ (openOutput o output).length) :
    dd o input output = writeAt (openOutput o output) (o.seek * o.bs) input := by
  have hrun := writeBlocks_spec o.sparse (blocks o.bs input)
    ⟨openOutput o output, o.seek * o.bs, false⟩
    (by rwa [blocks_flatten hbs]) (fun _ => hseek)
  rw [blocks_flatten hbs] at hrun
  rw [dd]
  dsimp only at hrun ⊢
  split
  · exact hrun.1
  · rw [← hrun.1, pad_of_le (hrun.2 (Bool.eq_false_iff.mpr ‹_›))]

/-- Copying into an existing file: a write, provided a sparse copy falls on zeros. -/
theorem dd_notrunc {bs seek : ℕ} {sparse : Bool} {input output : Bytes} (hbs : 0 < bs)
    (hin : seek * bs + input.length ≤ output.length)
    (hz : sparse → slice output (seek * bs) input.length = zeros input.length) :
    dd ⟨bs, seek, sparse, true⟩ input output = writeAt output (seek * bs) input :=
  dd_spec (o := ⟨bs, seek, sparse, true⟩) hbs (fun hs => zeroRange_slice (hz hs))
    (by change seek * bs ≤ output.length; omega)

/-- Copying to the start of a truncated file reproduces the input, sparse or not. -/
theorem dd_fresh {bs : ℕ} {sparse : Bool} {input output : Bytes} (hbs : 0 < bs) :
    dd ⟨bs, 0, sparse, false⟩ input output = input := by
  have hopen : openOutput ⟨bs, 0, sparse, false⟩ output = [] := by simp [openOutput]
  rw [dd_spec (o := ⟨bs, 0, sparse, false⟩) hbs, hopen]
  · rw [Nat.zero_mul, writeAt_empty_file]
  · intro _ i _ _ x hx
    rw [hopen] at hx
    simp at hx
  · simp

/-! ## Writes in order -/

structure Write where
  offset : ℕ
  data : Bytes

def Write.stop (w : Write) : ℕ := w.offset + w.data.length

def applyWrites (d : Bytes) (ws : List Write) : Bytes :=
  ws.foldl (fun d w => writeAt d w.offset w.data) d

/-- The writes stay inside a file of length `n` and do not overlap. -/
structure Fits (n : ℕ) (ws : List Write) : Prop where
  inside : ∀ w ∈ ws, w.stop ≤ n
  ordered : ws.Pairwise fun v w => v.stop ≤ w.offset

theorem applyWrites_append (d : Bytes) (vs ws : List Write) :
    applyWrites d (vs ++ ws) = applyWrites (applyWrites d vs) ws := List.foldl_append

theorem applyWrites_length {d : Bytes} {ws : List Write} (h : ∀ w ∈ ws, w.stop ≤ d.length) :
    (applyWrites d ws).length = d.length := by
  induction ws generalizing d with
  | nil => rfl
  | cons w ws ih =>
    have hw := writeAt_length (h w (by simp))
    have hrest := ih (d := writeAt d w.offset w.data) (fun v hv => by
      rw [hw]
      exact h v (List.mem_cons_of_mem w hv))
    exact hrest.trans hw

/-- Frame rule: a range apart from every write keeps its bytes. -/
theorem slice_applyWrites_frame {d : Bytes} {ws : List Write} {o n : ℕ}
    (hin : ∀ w ∈ ws, w.stop ≤ d.length)
    (h : ∀ w ∈ ws, o + n ≤ w.offset ∨ w.stop ≤ o) :
    slice (applyWrites d ws) o n = slice d o n := by
  induction ws generalizing d with
  | nil => rfl
  | cons w ws ih =>
    obtain ⟨hw, hws⟩ := List.forall_mem_cons.mp hin
    obtain ⟨ho, hos⟩ := List.forall_mem_cons.mp h
    have hlen := writeAt_length hw
    have hrest := ih (d := writeAt d w.offset w.data) (by rwa [hlen]) hos
    refine hrest.trans (slice_writeAt_frame ?_ ho)
    unfold Write.stop at hw
    omega

/-- Each of several separate writes is read back. -/
theorem slice_applyWrites {d : Bytes} {ws : List Write} (h : Fits d.length ws) {w : Write}
    (hw : w ∈ ws) : slice (applyWrites d ws) w.offset w.data.length = w.data := by
  obtain ⟨before, after, rfl⟩ := List.append_of_mem hw
  have hin := h.inside
  have hlen : (applyWrites d before).length = d.length :=
    applyWrites_length fun v hv => hin v (by simp [hv])
  have hwin := hin w (by simp)
  have hord := (List.pairwise_cons.mp (List.pairwise_append.mp h.ordered).2.1).1
  have hlen' : (writeAt (applyWrites d before) w.offset w.data).length = d.length := by
    rw [writeAt_length (by rw [hlen]; exact hwin), hlen]
  rw [applyWrites_append]
  refine (slice_applyWrites_frame (d := writeAt (applyWrites d before) w.offset w.data)
    ?_ ?_).trans (slice_writeAt _ _ _)
  · intro v hv
    rw [hlen']
    exact hin v (by simp [hv])
  · intro v hv
    exact .inl (hord v hv)

theorem Fits.front {n : ℕ} {a b : List Write} (h : Fits n (a ++ b)) : Fits n a :=
  ⟨fun v hv => h.inside v (List.mem_append_left b hv), (List.pairwise_append.mp h.ordered).1⟩

/-- A copy behind earlier writes is one more write. In sparse mode the target must have been
zero from the start; the earlier writes leave it alone. -/
theorem dd_applyWrites (sparse : Bool) {bs : ℕ} (seek : ℕ) (data : Bytes) {d : Bytes}
    {ws : List Write} (hbs : 0 < bs) (h : Fits d.length (ws ++ [⟨seek * bs, data⟩]))
    (hz : sparse → slice d (seek * bs) data.length = zeros data.length) :
    dd ⟨bs, seek, sparse, true⟩ data (applyWrites d ws) =
      applyWrites d (ws ++ [⟨seek * bs, data⟩]) := by
  have hin := h.front.inside
  have hnew := h.inside ⟨seek * bs, data⟩ (by simp)
  have hbefore := (List.pairwise_append.mp h.ordered).2.2
  rw [dd_notrunc hbs, applyWrites_append]
  · rfl
  · rw [applyWrites_length hin]
    exact hnew
  · intro hs
    have hframe := slice_applyWrites_frame (o := seek * bs) (n := data.length) hin
      fun w hw => .inr (hbefore w hw ⟨seek * bs, data⟩ (by simp))
    rw [hframe, hz hs]

end ByteStore
