import SbcImageBuild.UciPipe

/-!
# Writing to the device of a channel

`mhi_uci_write` splits what a client writes into transfers and chains them, so that the modem sees
one packet. What the ring, the memory and the client's signals do in a round is an input. The
mutex of `mhi_uci_write_mutex` lets one writer in at a time.
-/
namespace UciWrite

open ByteStore UciPipe

/-- A transfer to the modem; without `MHI_EOT` the next one goes on with its packet. -/
structure Element where
  data : Bytes
  eot : Bool
  deriving DecidableEq

/-- How a round of the loop goes. `avail` is the number of free descriptors, read before the
transfer is queued. -/
inductive Round where
  | again
  | interrupted
  | noMemory
  | uncopied (left : ℕ)
  | refused (error : ℤ)
  | queued (avail : ℕ)
  deriving DecidableEq

/-- What is returned from a round in which nothing is queued. -/
def Round.failure : Round → Option ℤ
  | .again => some (-eAgain)
  | .interrupted => some (-eRestartSys)
  | .noMemory => some (-eNoMem)
  | .uncopied left => some left
  | .refused error => some error
  | .queued _ => none

inductive Result where
  | underWay
  | done
  | value (n : ℤ)
  deriving DecidableEq

/-- The loop of `mhi_uci_write`. -/
def writeLoop (mtu : ℕ) : List Round → Bytes → List Element × Result
  | _, [] => ([], .done)
  | [], _ :: _ => ([], .underWay)
  | .queued avail :: rounds, b :: bytes =>
    let more := (b :: bytes).drop mtu
    let r := writeLoop mtu rounds more
    (⟨(b :: bytes).take mtu, decide (¬ (1 < avail ∧ more ≠ []))⟩ :: r.1, r.2)
  | round :: _, _ :: _ => ([], .value (round.failure.getD 0))

structure Call where
  bytes : Bytes
  rounds : List Round
  rxError : ℕ
  enabled : Bool
  deriving DecidableEq

def mhiUciWrite (mtu : ℕ) (c : Call) : List Element × Result :=
  if c.bytes = [] ∨ c.rxError ≠ 0 then ([], .value (-eInval))
  else if c.enabled = false then ([], .value (-eRestartSys))
  else writeLoop mtu c.rounds c.bytes

/-- The packets that the modem puts together, and the rest that is still open. -/
def packets : List Element → List Bytes × Bytes
  | [] => ([], [])
  | e :: es =>
    match e.eot, packets es with
    | true, (ps, rest) => (e.data :: ps, rest)
    | false, ([], rest) => ([], e.data ++ rest)
    | false, (p :: ps, rest) => ((e.data ++ p) :: ps, rest)

section Calls

variable (mtu : ℕ)

def elements (calls : List Call) : List Element := calls.flatMap fun c => (mhiUciWrite mtu c).1

/-- The writes that return their whole length. -/
def Done (c : Call) : Prop := (mhiUciWrite mtu c).2 = .done

instance : DecidablePred (Done mtu) := fun c =>
  inferInstanceAs (Decidable ((mhiUciWrite mtu c).2 = .done))

def messages (calls : List Call) : List Bytes := (calls.filter (Done mtu)).map Call.bytes

/-- Rounds that queue everything, and never find the last free descriptor with more to come. -/
def Roomy : List Round → Bytes → Prop
  | .queued avail :: rounds, bytes =>
    bytes.drop mtu = [] ∨ (1 < avail ∧ Roomy rounds (bytes.drop mtu))
  | _, _ => False

/-- A write that the checks in front of the loop refuse. -/
def Refused (c : Call) : Prop := c.bytes = [] ∨ c.rxError ≠ 0 ∨ c.enabled = false

/-- A write goes through with room, or ends before its first transfer. -/
def Atomic (c : Call) : Prop :=
  Refused c ∨ Roomy mtu c.rounds c.bytes ∨ ∀ round ∈ c.rounds.head?, round.failure.isSome

end Calls

/-! ### Packets -/

def size (es : List Element) : ℕ := (es.flatMap Element.data).length

def eots (es : List Element) : ℕ := es.countP Element.eot

theorem size_append (es fs : List Element) : size (es ++ fs) = size es + size fs := by
  simp [size]

theorem eots_append (es fs : List Element) : eots (es ++ fs) = eots es + eots fs :=
  List.countP_append

theorem size_cons (e : Element) (es : List Element) :
    size (e :: es) = e.data.length + size es := by
  simp [size]

theorem eots_cons (e : Element) (es : List Element) :
    eots (e :: es) = eots es + if e.eot then 1 else 0 :=
  List.countP_cons

/-- One packet for each `MHI_EOT`, and all bytes in them and the rest. -/
theorem packets_counts (es : List Element) :
    (packets es).1.length = eots es ∧
      (packets es).1.flatten ++ (packets es).2 = es.flatMap Element.data := by
  induction es with
  | nil => exact ⟨rfl, rfl⟩
  | cons e es ih =>
    obtain ⟨hlength, hdata⟩ := ih
    rw [eots_cons, List.flatMap_cons, ← hdata, ← hlength]
    cases heot : e.eot with
    | true => simp [packets, heot]
    | false =>
      rcases hpackets : packets es with ⟨_ | ⟨p, ps⟩, rest⟩
      · simp [packets, heot, hpackets]
      · simp [packets, heot, hpackets]

/-- Behind closed packets new ones begin. -/
theorem packets_append {es : List Element} (hclosed : (packets es).2 = []) (fs : List Element) :
    packets (es ++ fs) = ((packets es).1 ++ (packets fs).1, (packets fs).2) := by
  induction es with
  | nil => rfl
  | cons e es ih =>
    cases heot : e.eot with
    | true =>
      simp only [packets, heot] at hclosed
      simp [packets, heot, ih hclosed]
    | false =>
      rcases hpackets : packets es with ⟨_ | ⟨p, ps⟩, rest⟩
      · simp only [packets, heot, hpackets, List.append_eq_nil_iff] at hclosed
        obtain ⟨hdata, rfl⟩ := hclosed
        rw [hpackets] at ih
        rcases hback : packets fs with ⟨_ | ⟨q, qs⟩, more⟩
        · simp [packets, heot, hpackets, hback, ih rfl, hdata]
        · simp [packets, heot, hpackets, hback, ih rfl, hdata]
      · simp only [packets, heot, hpackets] at hclosed
        obtain rfl := hclosed
        rw [hpackets] at ih
        simp [packets, heot, hpackets, ih rfl]

/-- Everything in closed packets: their number and their bytes. -/
theorem closed_counts {es : List Element} {ps : List Bytes} (hpackets : packets es = (ps, [])) :
    eots es = ps.length ∧ size es = ps.flatten.length := by
  obtain ⟨hlength, hdata⟩ := packets_counts es
  rw [hpackets] at hlength hdata
  rw [List.append_nil] at hdata
  exact ⟨hlength.symm, congrArg List.length hdata.symm⟩

/-! ### The loop -/

theorem round_cases (round : Round) : round.failure.isSome ∨ ∃ avail, round = .queued avail := by
  cases round with
  | queued avail => exact .inr ⟨avail, rfl⟩
  | _ => exact .inl rfl

section Loop

variable {mtu : ℕ} {bytes : Bytes}

theorem writeLoop_nil (rounds : List Round) : writeLoop mtu rounds [] = ([], .done) := by
  cases rounds with
  | nil => rfl
  | cons round rounds => cases round <;> rfl

theorem writeLoop_failed {round : Round} (hround : round.failure.isSome) (rounds : List Round)
    (hbytes : bytes ≠ []) :
    writeLoop mtu (round :: rounds) bytes = ([], .value (round.failure.getD 0)) := by
  cases bytes with
  | nil => exact absurd rfl hbytes
  | cons b bytes =>
    cases round with
    | queued avail => exact absurd hround Bool.false_ne_true
    | _ => rfl

theorem writeLoop_queued (avail : ℕ) (rounds : List Round) (hbytes : bytes ≠ []) :
    writeLoop mtu (.queued avail :: rounds) bytes =
      (⟨bytes.take mtu, decide (¬ (1 < avail ∧ bytes.drop mtu ≠ []))⟩ ::
        (writeLoop mtu rounds (bytes.drop mtu)).1, (writeLoop mtu rounds (bytes.drop mtu)).2) := by
  cases bytes with
  | nil => exact absurd rfl hbytes
  | cons b bytes => rfl

theorem roomy_head {round : Round} {rounds : List Round}
    (hroomy : Roomy mtu (round :: rounds) bytes) :
    ∃ avail, round = .queued avail ∧
      (bytes.drop mtu = [] ∨ (1 < avail ∧ Roomy mtu rounds (bytes.drop mtu))) := by
  cases round with
  | queued avail => exact ⟨avail, rfl, hroomy⟩
  | _ => exact hroomy.elim

/-- With room a write goes through as one packet. -/
theorem roomy_packet (rounds : List Round) (hbytes : bytes ≠ []) (hroomy : Roomy mtu rounds bytes) :
    (writeLoop mtu rounds bytes).2 = .done ∧
      packets (writeLoop mtu rounds bytes).1 = ([bytes], []) := by
  induction rounds generalizing bytes with
  | nil => exact hroomy.elim
  | cons round rounds ih =>
    obtain ⟨avail, rfl, hroom⟩ := roomy_head hroomy
    rw [writeLoop_queued avail rounds hbytes]
    by_cases hdrop : bytes.drop mtu = []
    · have htake : bytes.take mtu = bytes := by
        simpa only [hdrop, List.append_nil] using List.take_append_drop mtu bytes
      rw [hdrop, writeLoop_nil]
      simp [packets, htake]
    · obtain ⟨havail, hmore⟩ := hroom.resolve_left hdrop
      obtain ⟨hdone, hpackets⟩ := ih hdrop hmore
      simp [packets, hdone, hpackets, havail, hdrop]

/-- What a write that goes through queues: all its bytes, and one packet only where it had room. -/
theorem done_counts (rounds : List Round) (hbytes : bytes ≠ [])
    (hdone : (writeLoop mtu rounds bytes).2 = .done) :
    size (writeLoop mtu rounds bytes).1 = bytes.length ∧
      1 ≤ eots (writeLoop mtu rounds bytes).1 ∧
      (eots (writeLoop mtu rounds bytes).1 = 1 → Roomy mtu rounds bytes) := by
  induction rounds generalizing bytes with
  | nil =>
    cases bytes with
    | nil => exact absurd rfl hbytes
    | cons b bytes => exact absurd hdone (by simp [writeLoop])
  | cons round rounds ih =>
    rcases round_cases round with hround | ⟨avail, rfl⟩
    · rw [writeLoop_failed hround rounds hbytes] at hdone
      exact absurd hdone (by simp)
    have hcut : (bytes.take mtu).length + (bytes.drop mtu).length = bytes.length := by
      rw [← List.length_append, List.take_append_drop]
    rw [writeLoop_queued avail rounds hbytes] at hdone ⊢
    rw [size_cons, eots_cons]
    by_cases hlast : bytes.drop mtu = []
    · rw [hlast, List.length_nil] at hcut
      rw [hlast, writeLoop_nil]
      exact ⟨hcut, by simp, fun _ => .inl hlast⟩
    · obtain ⟨hsize, heots, hroomy⟩ := ih hlast hdone
      refine ⟨by rw [hsize, hcut], by omega, fun hone => .inr ⟨?_, hroomy (by omega)⟩⟩
      -- one packet is the last one, so that this transfer was chained
      by_contra havail
      simp [havail] at hone
      omega

/-- A write that queues nothing fails in its first round. -/
theorem failed_of_size (hmtu : 0 < mtu) (rounds : List Round) (hbytes : bytes ≠ [])
    (hsize : size (writeLoop mtu rounds bytes).1 = 0) :
    ∀ round ∈ rounds.head?, round.failure.isSome := by
  cases rounds with
  | nil => simp
  | cons round rounds =>
    rintro _ ⟨⟩
    refine (round_cases round).resolve_right ?_
    rintro ⟨avail, rfl⟩
    rw [writeLoop_queued avail rounds hbytes, size_cons, List.length_take] at hsize
    have := List.length_pos_iff.mpr hbytes
    omega

theorem unbegun {rounds : List Round} (hbytes : bytes ≠ [])
    (hfirst : ∀ round ∈ rounds.head?, round.failure.isSome) :
    (writeLoop mtu rounds bytes).1 = [] ∧ (writeLoop mtu rounds bytes).2 ≠ .done := by
  cases rounds with
  | nil =>
    cases bytes with
    | nil => exact absurd rfl hbytes
    | cons b bytes => simp [writeLoop]
  | cons round rounds =>
    rw [writeLoop_failed (hfirst round rfl) rounds hbytes]
    simp

/-- The first round that fails ends the write with its value. -/
theorem writeLoop_stops {front : List Round} {round : Round} {n : ℤ} (back : List Round)
    (hfront : ∀ r ∈ front, r.failure = none) (hround : round.failure = some n)
    (hroom : front.length * mtu < bytes.length) :
    size (writeLoop mtu (front ++ round :: back) bytes).1 = front.length * mtu ∧
      (writeLoop mtu (front ++ round :: back) bytes).2 = .value n := by
  induction front generalizing bytes with
  | nil =>
    have hbytes : bytes ≠ [] := List.ne_nil_of_length_pos (by omega)
    rw [List.nil_append, writeLoop_failed (by rw [hround]; rfl) back hbytes, hround]
    exact ⟨(Nat.zero_mul mtu).symm, rfl⟩
  | cons r front ih =>
    have hbytes : bytes ≠ [] := List.ne_nil_of_length_pos (by omega)
    obtain ⟨avail, rfl⟩ := (round_cases r).resolve_left
      (by rw [hfront r List.mem_cons_self]; exact Bool.false_ne_true)
    rw [List.length_cons, Nat.succ_mul] at hroom
    obtain ⟨hsize, hvalue⟩ := ih (fun r hr => hfront r (List.mem_cons_of_mem _ hr))
      (by rw [List.length_drop]; omega : front.length * mtu < (bytes.drop mtu).length)
    rw [List.cons_append, writeLoop_queued avail _ hbytes]
    refine ⟨?_, hvalue⟩
    rw [size_cons, hsize, List.length_take, List.length_cons, Nat.succ_mul,
      Nat.min_eq_left (by omega), Nat.add_comm]

theorem stops_of_value {n : ℤ} (rounds : List Round)
    (hvalue : (writeLoop mtu rounds bytes).2 = .value n) :
    ∃ front round back, rounds = front ++ round :: back ∧ (∀ r ∈ front, r.failure = none) ∧
      round.failure = some n ∧ front.length * mtu < bytes.length := by
  induction rounds generalizing bytes with
  | nil => cases bytes <;> cases hvalue
  | cons round rounds ih =>
    by_cases hbytes : bytes = []
    · rw [hbytes, writeLoop_nil] at hvalue
      cases hvalue
    rcases round_cases round with hround | ⟨avail, rfl⟩
    · obtain ⟨value, hfailure⟩ := Option.isSome_iff_exists.mp hround
      rw [writeLoop_failed hround rounds hbytes, hfailure] at hvalue
      obtain rfl : value = n := Result.value.inj hvalue
      refine ⟨[], round, rounds, rfl, fun r hr => absurd hr List.not_mem_nil, hfailure, ?_⟩
      rw [List.length_nil, Nat.zero_mul]
      exact List.length_pos_iff.mpr hbytes
    · rw [writeLoop_queued avail rounds hbytes] at hvalue
      obtain ⟨front, round, back, rfl, hfront, hround, hroom⟩ := ih hvalue
      refine ⟨.queued avail :: front, round, back, rfl, ?_, hround, ?_⟩
      · intro r hr
        rcases List.mem_cons.mp hr with rfl | hr
        · rfl
        · exact hfront r hr
      · rw [List.length_drop] at hroom
        rw [List.length_cons, Nat.succ_mul]
        omega

end Loop

/-! ### Writes and messages -/

section Messages

variable {mtu : ℕ} {c : Call}

theorem write_refused (mtu : ℕ) (hrefused : Refused c) :
    ∃ n < 0, mhiUciWrite mtu c = ([], .value n) := by
  unfold mhiUciWrite
  split_ifs with hcheck henabled
  · exact ⟨-eInval, by decide, rfl⟩
  · exact ⟨-eRestartSys, by decide, rfl⟩
  · rcases hrefused with h | h | h
    · exact absurd (.inl h) hcheck
    · exact absurd (.inr h) hcheck
    · exact absurd h henabled

theorem write_accepted (mtu : ℕ) (haccepted : ¬ Refused c) :
    c.bytes ≠ [] ∧ mhiUciWrite mtu c = writeLoop mtu c.rounds c.bytes := by
  simp only [Refused, not_or] at haccepted
  obtain ⟨hbytes, hrx, henabled⟩ := haccepted
  exact ⟨hbytes, by rw [mhiUciWrite, if_neg (by simp [hbytes, hrx]), if_neg henabled]⟩

theorem elements_cons (mtu : ℕ) (c : Call) (calls : List Call) :
    elements mtu (c :: calls) = (mhiUciWrite mtu c).1 ++ elements mtu calls :=
  List.flatMap_cons

theorem messages_of_done (hdone : Done mtu c) (calls : List Call) :
    messages mtu (c :: calls) = c.bytes :: messages mtu calls := by
  simp [messages, hdone]

theorem messages_of_not_done (hdone : ¬ Done mtu c) (calls : List Call) :
    messages mtu (c :: calls) = messages mtu calls := by
  simp [messages, hdone]

/-- An atomic write is one message and one packet, or neither. -/
theorem atomic_packets (hatomic : Atomic mtu c) :
    (Done mtu c ∧ packets (mhiUciWrite mtu c).1 = ([c.bytes], [])) ∨
      (¬ Done mtu c ∧ (mhiUciWrite mtu c).1 = []) := by
  by_cases hrefused : Refused c
  · obtain ⟨n, -, hn⟩ := write_refused mtu hrefused
    exact .inr ⟨by simp [Done, hn], by rw [hn]⟩
  obtain ⟨hbytes, hloop⟩ := write_accepted mtu hrefused
  rw [Done, hloop]
  rcases hatomic.resolve_left hrefused with hroomy | hfirst
  · exact .inl (roomy_packet c.rounds hbytes hroomy)
  · exact .inr (unbegun hbytes hfirst).symm

/-- The bytes and the packets that the modem owes the clients for a write. -/
def owed (mtu : ℕ) (c : Call) : ℕ := if Done mtu c then c.bytes.length + 1 else 0

def spent (mtu : ℕ) (c : Call) : ℕ := size (mhiUciWrite mtu c).1 + eots (mhiUciWrite mtu c).1

theorem owed_le (mtu : ℕ) (c : Call) : owed mtu c ≤ spent mtu c := by
  unfold owed spent
  split_ifs with hdone
  · by_cases hrefused : Refused c
    · obtain ⟨n, -, hn⟩ := write_refused mtu hrefused
      exact absurd hdone (by simp [Done, hn])
    · obtain ⟨hbytes, hloop⟩ := write_accepted mtu hrefused
      rw [Done, hloop] at hdone
      have := done_counts c.rounds hbytes hdone
      rw [hloop]
      omega
  · exact Nat.zero_le _

theorem atomic_of_owed (hmtu : 0 < mtu) (howed : owed mtu c = spent mtu c) : Atomic mtu c := by
  by_cases hrefused : Refused c
  · exact .inl hrefused
  obtain ⟨hbytes, hloop⟩ := write_accepted mtu hrefused
  refine .inr ?_
  unfold owed spent at howed
  rw [hloop] at howed
  split_ifs at howed with hdone
  · rw [Done, hloop] at hdone
    obtain ⟨hsize, -, hroomy⟩ := done_counts c.rounds hbytes hdone
    exact .inl (hroomy (by omega))
  · exact .inr (failed_of_size hmtu c.rounds hbytes (by omega))

theorem elements_sum (c : Call) (calls : List Call) :
    size (elements mtu (c :: calls)) + eots (elements mtu (c :: calls)) =
      spent mtu c + (size (elements mtu calls) + eots (elements mtu calls)) := by
  rw [elements_cons, size_append, eots_append, spent]
  omega

theorem messages_sum (c : Call) (calls : List Call) :
    (messages mtu (c :: calls)).flatten.length + (messages mtu (c :: calls)).length =
      owed mtu c + ((messages mtu calls).flatten.length + (messages mtu calls).length) := by
  unfold owed
  split_ifs with hdone
  · rw [messages_of_done hdone, List.flatten_cons, List.length_append, List.length_cons]
    omega
  · rw [messages_of_not_done hdone]
    omega

/-- All writes together queue at least what they owe, and where it is no more none is torn. -/
theorem owed_total (hmtu : 0 < mtu) (calls : List Call) :
    (messages mtu calls).flatten.length + (messages mtu calls).length ≤
        size (elements mtu calls) + eots (elements mtu calls) ∧
      ((messages mtu calls).flatten.length + (messages mtu calls).length =
        size (elements mtu calls) + eots (elements mtu calls) → ∀ c ∈ calls, Atomic mtu c) := by
  induction calls with
  | nil => exact ⟨Nat.zero_le _, fun _ _ hc => absurd hc List.not_mem_nil⟩
  | cons c calls ih =>
    obtain ⟨hle, hatomic⟩ := ih
    have hc := owed_le mtu c
    rw [elements_sum, messages_sum]
    refine ⟨by omega, fun hsum d hd => ?_⟩
    rcases List.mem_cons.mp hd with rfl | hd
    · exact atomic_of_owed hmtu (by omega)
    · exact hatomic (by omega) d hd

/-- The packets at the modem are the messages of the writes that report success, with nothing left
open, exactly when no write is cut short behind its first transfer, and none finds the ring down to
its last free descriptor with more to come. -/
theorem packets_are_messages_iff (hmtu : 0 < mtu) (calls : List Call) :
    packets (elements mtu calls) = (messages mtu calls, []) ↔ ∀ c ∈ calls, Atomic mtu c := by
  constructor
  · intro hpackets
    obtain ⟨heots, hsize⟩ := closed_counts hpackets
    refine (owed_total hmtu calls).2 ?_
    rw [heots, hsize]
  · intro hatomic
    induction calls with
    | nil => rfl
    | cons c calls ih =>
      have hrest := ih fun d hd => hatomic d (List.mem_cons_of_mem c hd)
      rw [elements_cons]
      rcases atomic_packets (hatomic c List.mem_cons_self) with ⟨hdone, hc⟩ | ⟨hdone, hc⟩
      · rw [packets_append (by rw [hc]), hc, hrest, messages_of_done hdone]
        rfl
      · rw [hc, messages_of_not_done hdone]
        exact hrest

end Messages

def wholeWrites : List Call :=
  [⟨[1, 2, 3], [.queued 3, .queued 1], 0, true⟩, ⟨[4], [.again], 0, true⟩,
    ⟨[5, 6], [.queued 1], 0, true⟩]

theorem packets_are_messages_iff_whole :
    packets (elements 2 wholeWrites) = (messages 2 wholeWrites, []) :=
  (packets_are_messages_iff (by decide) wholeWrites).mpr (by
    simp [wholeWrites, Atomic, Roomy, Round.failure])

/-- A write that a signal cuts short is glued to the next one. -/
example :
    packets (elements 2 [⟨[1, 2, 3], [.queued 3, .interrupted], 0, true⟩,
      ⟨[4], [.queued 3], 0, true⟩]) = ([[1, 2, 4]], []) := by
  decide

/-! ### What a write returns -/

section Returned

variable (mtu : ℕ) (c : Call)

/-- The value of a write that has ended. -/
def returned : Option ℤ :=
  match (mhiUciWrite mtu c).2 with
  | .underWay => none
  | .done => some c.bytes.length
  | .value n => some n

/-- A length stands for that many queued bytes, and an error for none. -/
def Truthful : Prop :=
  ∀ n ∈ returned mtu c, (n < 0 → size (mhiUciWrite mtu c).1 = 0) ∧
    (0 ≤ n → (size (mhiUciWrite mtu c).1 : ℤ) = n)

/-- A round that ends the write early is its first one and fails with an error, or leaves as many
bytes uncopied as are queued. -/
def Unbroken : Prop :=
  ∀ front round back, c.rounds = front ++ round :: back → (∀ r ∈ front, r.failure = none) →
    front.length * mtu < c.bytes.length → ∀ n ∈ round.failure,
      (n < 0 ∧ front = []) ∨ ((front.length * mtu : ℕ) : ℤ) = n

end Returned

/-- An error may hide bytes that are queued, and uncopied bytes may pass for a length. -/
theorem truthful_iff {mtu : ℕ} (hmtu : 0 < mtu) (c : Call) :
    Truthful mtu c ↔ Refused c ∨ Unbroken mtu c := by
  by_cases hrefused : Refused c
  · obtain ⟨n, hn, hwrite⟩ := write_refused mtu hrefused
    refine iff_of_true (fun v hv => ?_) (.inl hrefused)
    obtain rfl : n = v := by
      rw [returned, hwrite] at hv
      exact Option.some.inj hv
    rw [hwrite]
    exact ⟨fun _ => rfl, fun hlength => absurd hn (Int.not_lt.mpr hlength)⟩
  obtain ⟨hbytes, hloop⟩ := write_accepted mtu hrefused
  rw [or_iff_right hrefused, Truthful, returned, hloop]
  constructor
  · intro htruth front round back hrounds hfront hroom n hn
    obtain ⟨hsize, hvalue⟩ := writeLoop_stops back hfront hn hroom
    rw [← hrounds] at hsize hvalue
    obtain ⟨herror, hlength⟩ := htruth n (by rw [hvalue]; rfl)
    rw [hsize] at herror hlength
    rcases Int.lt_or_le n 0 with hneg | hnonneg
    · have hempty := (Nat.mul_eq_zero.mp (herror hneg)).resolve_right (Nat.ne_of_gt hmtu)
      exact .inl ⟨hneg, List.length_eq_zero_iff.mp hempty⟩
    · exact .inr (hlength hnonneg)
  · intro hunbroken n hn
    cases hresult : (writeLoop mtu c.rounds c.bytes).2 with
    | underWay =>
      rw [hresult] at hn
      cases hn
    | done =>
      rw [hresult] at hn
      obtain rfl : (c.bytes.length : ℤ) = n := Option.some.inj hn
      rw [(done_counts c.rounds hbytes hresult).1]
      exact ⟨fun hneg => by omega, fun _ => rfl⟩
    | value v =>
      rw [hresult] at hn
      obtain rfl : v = n := Option.some.inj hn
      obtain ⟨front, round, back, hrounds, hfront, hround, hroom⟩ := stops_of_value c.rounds hresult
      have hsize := (writeLoop_stops back hfront hround hroom).1
      rw [← hrounds] at hsize
      rw [hsize]
      rcases hunbroken front round back hrounds hfront hroom v hround with ⟨hneg, rfl⟩ | heq
      · exact ⟨fun _ => Nat.zero_mul mtu, fun hlength => absurd hneg (Int.not_lt.mpr hlength)⟩
      · exact ⟨fun hneg => by omega, fun _ => heq⟩

/-- The second transfer cannot be copied: the write returns the number of bytes that are missing. -/
theorem truthful_iff_uncopied :
    ¬ Truthful 2 ⟨[1, 2, 3], [.queued 3, .uncopied 1], 0, true⟩ := by
  rw [truthful_iff (by decide)]
  rintro (hrefused | hunbroken)
  · exact absurd hrefused (by simp [Refused])
  · exact absurd (hunbroken [.queued 3] (.uncopied 1) [] rfl (by decide) (by decide) 1 rfl)
      (by decide)

end UciWrite
