import SomeCode.Checksum
import SomeCode.MachineInt
import Mathlib.Tactic

/-! `send_ping` of `inf22-1.c`: a request is sent and a packet awaited in each round, until the
time is over; then the number of rounds that were counted as answered is printed. -/
namespace SomeCode
namespace SendPing

open MachineInt

/-- `struct icmphdr`, with the fields of an echo message -/
structure Header where
  type : UInt8
  code : UInt8
  checksum : UInt16
  id : UInt16
  sequence : UInt16
  deriving DecidableEq

def ICMP_ECHO : UInt8 := 8

def ICMP_ECHOREPLY : UInt8 := 0

/-- `ping_pkt_t` as it lies in memory -/
def pingBytes (h : Header) (msg : List UInt8) : List UInt8 :=
  [h.type,h.code,h.checksum.toUInt8,(h.checksum >>> 8).toUInt8,h.id.toUInt8,(h.id >>> 8).toUInt8,
    h.sequence.toUInt8,(h.sequence >>> 8).toUInt8] ++ msg

def PING_PKT_S : ℕ := 64

/-- `msg[i] = i + '0'` for all but the last of its 56 bytes -/
def pingMsg : List UInt8 := (List.range (PING_PKT_S-8-1)).map (fun i => UInt8.ofNat (i+48)) ++ [0]

def blank (pid msgCount : ℤ) : Header :=
  ⟨ICMP_ECHO,0,0,UInt16.ofInt pid,UInt16.ofInt msgCount⟩

/-- The packet that is sent when `msg_count` requests have been sent before -/
def request (pid msgCount : ℤ) : List UInt8 :=
  let packet := pingBytes (blank pid msgCount) pingMsg
  match Checksum.checksum packet PING_PKT_S with
  | some r => Checksum.store packet 2 r
  | none => packet

theorem checksum_request (pid msgCount : ℤ) :
    Checksum.checksum (request pid msgCount) PING_PKT_S = some 0 := by
  have hlen : (pingBytes (blank pid msgCount) pingMsg).length = PING_PKT_S := by
    simp [pingBytes,pingMsg,PING_PKT_S]
  obtain ⟨r,hr,-⟩ := Checksum.walkSum_finish hlen.ge (by decide)
  have hzero := Checksum.walkSum_store (p := 2) hlen.ge (by decide) hr rfl
    (by decide) (by simp [pingBytes,blank]) (by simp [pingBytes,blank])
  have hsum : Checksum.checksum (pingBytes (blank pid msgCount) pingMsg) PING_PKT_S = some r := hr
  simp only [request,hsum]
  exact hzero

/-- What `recvfrom` comes back with: an error (such as the time being up), or a packet that the
raw socket has seen, with the length of it; there is an IP header of 20 bytes in front. -/
inductive Received
  | error
  | packet (h : Header) (len : ℕ) (hlen : 28 ≤ len)
  deriving DecidableEq

def Received.result : Received → ℤ
  | error => -1
  | packet _ len _ => min PING_PKT_S len

structure Round where
  sendto : ℤ
  recvfrom : Received
  deriving DecidableEq

structure Counters where
  msgCount : ℤ
  msgReceivedCount : ℤ

/-- `sen = recvfrom (...) <= 0 && msg_count > 1`, where nothing is done if it is 1 -/
def round (c : Counters) (r : Round) : Counters :=
  let msgCount := wrap 32 (c.msgCount+1)
  let sen := decide (r.recvfrom.result ≤ 0) && decide (1 < msgCount)
  ⟨msgCount,if sen then c.msgReceivedCount else wrap 32 (c.msgReceivedCount+1)⟩

/-- The number that is printed at the end -/
def sendPing (rounds : List Round) : ℤ := (rounds.foldl round ⟨0,0⟩).msgReceivedCount

def Round.reply (id : UInt16) (r : Round) : Option UInt16 :=
  match r.recvfrom with
  | .packet h _ _ => if h.type = ICMP_ECHOREPLY ∧ h.id = id then some h.sequence else none
  | .error => none

def sent : ℤ → List Round → Finset UInt16
  | _, [] => ∅
  | msgCount, r :: rest =>
    let later := sent (wrap 32 (msgCount+1)) rest
    if 0 < r.sendto then insert (UInt16.ofInt msgCount) later else later

def replies (id : UInt16) : List Round → Finset UInt16
  | [] => ∅
  | r :: rest =>
    match r.reply id with
    | some q => insert q (replies id rest)
    | none => replies id rest

def answered (pid : ℤ) (rounds : List Round) : ℕ :=
  (replies (UInt16.ofInt pid) rounds ∩ sent 0 rounds).card

/-- The program counts a round that follows `msgCount` others. -/
def Counts (msgCount : ℤ) (r : Round) : Prop :=
  ¬ (r.recvfrom.result ≤ 0 ∧ 1 < wrap 32 (msgCount+1))

instance (msgCount : ℤ) (r : Round) : Decidable (Counts msgCount r) :=
  inferInstanceAs (Decidable (¬ _))

/-- The round brings the first reply to a request, where the replies `seen` have come before. -/
def Answers (id : UInt16) (requests seen : Finset UInt16) (r : Round) : Prop :=
  ∃ q ∈ r.reply id, q ∈ requests \ seen

instance (id : UInt16) (requests seen : Finset UInt16) (r : Round) :
    Decidable (Answers id requests seen r) :=
  inferInstanceAs (Decidable (∃ q ∈ r.reply id, q ∈ requests \ seen))

def superfluous (id : UInt16) (requests : Finset UInt16) :
    ℤ → Finset UInt16 → List Round → ℕ
  | _, _, [] => 0
  | msgCount, seen, r :: rest =>
    (if Counts msgCount r ∧ ¬ Answers id requests seen r then 1 else 0) +
      superfluous id requests (wrap 32 (msgCount+1)) (seen ∪ replies id [r]) rest

def counted : ℤ → List Round → ℕ
  | _, [] => 0
  | msgCount, r :: rest =>
    (if Counts msgCount r then 1 else 0) + counted (wrap 32 (msgCount+1)) rest

theorem Received.result_pos {x : Received} : 0 < x.result ↔ x ≠ .error := by
  cases x with
  | error => simp [Received.result]
  | packet h len hlen =>
    simp only [Received.result,PING_PKT_S,ne_eq,reduceCtorEq,not_false_eq_true,iff_true]
    omega

theorem Answers.counts {id : UInt16} {requests seen : Finset UInt16} {r : Round} {msgCount : ℤ}
    (h : Answers id requests seen r) : Counts msgCount r := by
  obtain ⟨q,hq,-⟩ := h
  rintro ⟨hle,-⟩
  have hne : r.recvfrom ≠ .error := by
    intro he
    simp [Round.reply,he] at hq
  exact absurd (Received.result_pos.mpr hne) (by omega)

theorem foldl_round (rounds : List Round) (msgCount : ℤ) (c : ℕ) :
    (rounds.foldl round ⟨msgCount,wrap 32 c⟩).msgReceivedCount =
      wrap 32 ((c + counted msgCount rounds : ℕ) : ℤ) := by
  induction rounds generalizing msgCount c with
  | nil => simp [counted]
  | cons r rest ih =>
    by_cases hc : Counts msgCount r
    · have hround : round ⟨msgCount,wrap 32 c⟩ r =
          ⟨wrap 32 (msgCount+1),wrap 32 ((c+1 : ℕ) : ℤ)⟩ := by
        have hsen : (decide (r.recvfrom.result ≤ 0) && decide (1 < wrap 32 (msgCount+1))) = false := by
          simpa [Counts] using hc
        simp only [round,hsen,Bool.false_eq_true,if_false,wrap_wrap_add,Nat.cast_succ]
      rw [List.foldl_cons,hround,ih,counted,if_pos hc,Nat.add_assoc]
    · have hround : round ⟨msgCount,wrap 32 c⟩ r = ⟨wrap 32 (msgCount+1),wrap 32 c⟩ := by
        have hsen : (decide (r.recvfrom.result ≤ 0) && decide (1 < wrap 32 (msgCount+1))) = true := by
          simpa [Counts] using hc
        simp [round,hsen]
      rw [List.foldl_cons,hround,ih,counted,if_neg hc,Nat.zero_add]

theorem counted_eq (id : UInt16) (requests seen : Finset UInt16) (msgCount : ℤ)
    (rounds : List Round) :
    counted msgCount rounds = superfluous id requests msgCount seen rounds +
      ((replies id rounds ∩ requests) \ seen).card := by
  induction rounds generalizing msgCount seen with
  | nil => simp [counted,superfluous,replies]
  | cons r rest ih =>
    rw [counted,superfluous,ih (seen ∪ replies id [r])]
    cases hq : r.reply id with
    | none =>
      have hno : ¬ Answers id requests seen r := by simp [Answers,hq]
      have hsame : replies id [r] = ∅ := by simp [replies,hq]
      have hrest : replies id (r :: rest) = replies id rest := by simp [replies,hq]
      simp only [hno,not_false_eq_true,and_true,hsame,hrest,Finset.union_empty]
      omega
    | some q =>
      have hsame : replies id [r] = {q} := by simp [replies,hq]
      have hrest : replies id (r :: rest) = insert q (replies id rest) := by simp [replies,hq]
      rw [hsame,hrest]
      by_cases hnew : q ∈ requests \ seen
      · have hans : Answers id requests seen r := ⟨q,hq,hnew⟩
        obtain ⟨hreq,hseen⟩ := Finset.mem_sdiff.mp hnew
        have hset : (insert q (replies id rest) ∩ requests) \ seen =
            insert q ((replies id rest ∩ requests) \ (seen ∪ {q})) := by
          ext x
          by_cases hx : x = q
          · subst hx
            simp [hreq,hseen]
          · simp [hx]
        have hcard : (insert q ((replies id rest ∩ requests) \ (seen ∪ {q}))).card =
            ((replies id rest ∩ requests) \ (seen ∪ {q})).card + 1 :=
          Finset.card_insert_of_notMem (by simp)
        rw [hset,hcard,if_pos hans.counts,if_neg (fun h => h.2 hans)]
        omega
      · have hno : ¬ Answers id requests seen r := by
          rintro ⟨q',hq',hmem⟩
          obtain rfl : q = q' := Option.some.inj (hq.symm.trans hq')
          exact hnew hmem
        have hset : (insert q (replies id rest) ∩ requests) \ seen =
            (replies id rest ∩ requests) \ (seen ∪ {q}) := by
          ext x
          by_cases hx : x = q
          · subst hx
            simp only [Finset.mem_sdiff] at hnew
            simp
            tauto
          · simp [hx]
        rw [hset]
        simp only [hno,not_false_eq_true,and_true]
        omega

theorem replies_cons (id : UInt16) (r : Round) (rest : List Round) :
    replies id (r :: rest) = replies id [r] ∪ replies id rest := by
  cases hq : r.reply id with
  | none => simp [replies,hq]
  | some q => simp [replies,hq]

theorem superfluous_le (id : UInt16) (requests : Finset UInt16) (msgCount : ℤ)
    (seen : Finset UInt16) (rounds : List Round) :
    superfluous id requests msgCount seen rounds ≤ rounds.length := by
  induction rounds generalizing msgCount seen with
  | nil => exact le_rfl
  | cons r rest ih =>
    have hrest := ih (wrap 32 (msgCount+1)) (seen ∪ replies id [r])
    simp only [superfluous,List.length_cons]
    split_ifs <;> omega

/-- No round is superfluous where each that is counted brings a first reply. -/
theorem superfluous_eq_zero_iff (id : UInt16) (requests seen : Finset UInt16) (n : ℕ)
    (rounds : List Round) :
    superfluous id requests (wrap 32 n) seen rounds = 0 ↔
      ∀ before r after, rounds = before ++ r :: after →
        Counts (wrap 32 ((n + before.length : ℕ) : ℤ)) r →
        Answers id requests (seen ∪ replies id before) r := by
  induction rounds generalizing n seen with
  | nil => simp [superfluous]
  | cons r rest ih =>
    have hnext : wrap 32 (wrap 32 (n : ℤ) + 1) = wrap 32 ((n+1 : ℕ) : ℤ) := by
      rw [wrap_wrap_add,Nat.cast_succ]
    rw [superfluous,hnext,Nat.add_eq_zero_iff,ih]
    constructor
    · rintro ⟨hfirst,hrest⟩ before r' after he hc
      cases before with
      | nil =>
        obtain ⟨rfl,rfl⟩ := List.cons.inj he
        by_contra hno
        rw [if_pos ⟨hc,by simpa [replies] using hno⟩] at hfirst
        exact absurd hfirst one_ne_zero
      | cons b before =>
        obtain ⟨rfl,he'⟩ := List.cons.inj he
        have hlen : n+1+before.length = n+(r :: before).length := by
          rw [List.length_cons]
          omega
        have h := hrest before r' after he' (by rwa [hlen])
        rwa [Finset.union_assoc,← replies_cons] at h
    · intro h
      constructor
      · refine if_neg fun hbad => hbad.2 ?_
        simpa [replies] using h [] r rest rfl (by simpa using hbad.1)
      · intro before r' after he hc
        have hlen : n+1+before.length = n+(r :: before).length := by
          rw [List.length_cons]
          omega
        have h' := h (r :: before) r' after (by rw [he]; rfl) (by rwa [← hlen])
        rwa [replies_cons,← Finset.union_assoc] at h'

/-- The requests that were not answered in time are none in the first round, and every packet
that comes in is the first reply to a request. -/
def Orderly (pid : ℤ) (rounds : List Round) : Prop :=
  (∀ r ∈ rounds.head?, r.recvfrom ≠ .error) ∧
  ∀ before r after, rounds = before ++ r :: after → r.recvfrom ≠ .error →
    Answers (UInt16.ofInt pid) (sent 0 rounds) (replies (UInt16.ofInt pid) before) r

/-- Up to the limit of `int`, a timeout is counted in the first round only. -/
theorem counts_iff {k : ℕ} (hk : k+1 < 2^31) (r : Round) :
    Counts (wrap 32 (k : ℤ)) r ↔ (r.recvfrom ≠ .error ∨ k = 0) := by
  have hval : wrap 32 (wrap 32 (k : ℤ) + 1) = k+1 := by
    rw [wrap_wrap_add]
    exact wrap_eq (w := 31) (by omega) (by push_cast; omega)
  rw [Counts,hval,← Received.result_pos]
  omega

theorem none_superfluous_iff {pid : ℤ} {rounds : List Round} (hlen : rounds.length < 2^31) :
    superfluous (UInt16.ofInt pid) (sent 0 rounds) 0 ∅ rounds = 0 ↔ Orderly pid rounds := by
  have hzero := superfluous_eq_zero_iff (UInt16.ofInt pid) (sent 0 rounds) ∅ 0 rounds
  rw [show wrap 32 ((0 : ℕ) : ℤ) = 0 from rfl] at hzero
  rw [hzero]
  have hcounts : ∀ before r after, rounds = before ++ r :: after →
      (Counts (wrap 32 ((0+before.length : ℕ) : ℤ)) r ↔ (r.recvfrom ≠ .error ∨ before = [])) := by
    intro before r after he
    have hb := congrArg List.length he
    rw [List.length_append,List.length_cons] at hb
    rw [Nat.zero_add,counts_iff (by omega),List.length_eq_zero_iff]
  constructor
  · intro h
    refine ⟨fun r hr => ?_,fun before r after he hne => ?_⟩
    · obtain ⟨after,he⟩ : ∃ after, rounds = r :: after := by
        cases rounds with
        | nil => simp at hr
        | cons a after => exact ⟨after,by rw [Option.some.inj hr]⟩
      have hans := h [] r after he ((hcounts [] r after he).mpr (.inr rfl))
      rintro herr
      obtain ⟨q,hq,-⟩ := hans
      simp [Round.reply,herr] at hq
    · simpa using h before r after he ((hcounts before r after he).mpr (.inl hne))
  · rintro ⟨hfirst,hall⟩ before r after he hc
    have hne : r.recvfrom ≠ .error := by
      obtain hne | rfl := (hcounts before r after he).mp hc
      · exact hne
      · exact hfirst r (by simp [he])
    simpa using hall before r after he hne

theorem answered_lt (pid : ℤ) (rounds : List Round) : answered pid rounds < 2^31 := by
  have hle : answered pid rounds ≤ (Finset.range (2^16)).card :=
    Finset.card_le_card_of_injOn UInt16.toNat
      (fun q _ => Finset.mem_coe.mpr (Finset.mem_range.mpr q.toNat_lt))
      fun _ _ _ _ h => UInt16.toNat_inj.mp h
  rw [Finset.card_range] at hle
  omega

/-- The number printed is the number of requests that were answered exactly where the
superfluous rounds go unnoticed in an `int`: where there are none, in any run of less than
2^31 rounds. There it takes that the first round is not a timeout and that nothing but first
replies is received. -/
theorem prints_answered_iff (pid : ℤ) (rounds : List Round) :
    (sendPing rounds = answered pid rounds ↔
      2^32 ∣ superfluous (UInt16.ofInt pid) (sent 0 rounds) 0 ∅ rounds) ∧
    (rounds.length < 2^31 → (sendPing rounds = answered pid rounds ↔ Orderly pid rounds)) := by
  have hcount := counted_eq (UInt16.ofInt pid) (sent 0 rounds) ∅ 0 rounds
  rw [Finset.sdiff_empty] at hcount
  change _ = _ + answered pid rounds at hcount
  have hrun := foldl_round rounds 0 0
  rw [Nat.zero_add,hcount] at hrun
  have hsmall := answered_lt pid rounds
  have hprint : sendPing rounds = wrap 32 ((superfluous (UInt16.ofInt pid) (sent 0 rounds) 0 ∅
      rounds + answered pid rounds : ℕ) : ℤ) := hrun
  have hiff : sendPing rounds = answered pid rounds ↔
      2^32 ∣ superfluous (UInt16.ofInt pid) (sent 0 rounds) 0 ∅ rounds := by
    rw [hprint,Nat.cast_add,wrap_add_eq_iff (w := 31) (by omega) (by omega)]
    omega
  refine ⟨hiff,fun hlen => ?_⟩
  have hle := superfluous_le (UInt16.ofInt pid) (sent 0 rounds) 0 ∅ rounds
  rw [hiff,← none_superfluous_iff hlen]
  omega

/-- In the only round nothing comes in before its time is up, or the socket sees the request
itself; in both cases 1 is printed. -/
theorem timeout_counted :
    sendPing [⟨64,.error⟩] = 1 ∧ answered 7 [⟨64,.error⟩] = 0 ∧
    sendPing [⟨64,.packet ⟨ICMP_ECHO,0,0,7,0⟩ 84 (by decide)⟩] = 1 ∧
    answered 7 [⟨64,.packet ⟨ICMP_ECHO,0,0,7,0⟩ 84 (by decide)⟩] = 0 := by decide

end SendPing
end SomeCode
