import SomeCode.Decryptor
import SomeCode.ReadBuffer

/-! `inf25-1-ver2.c`, which decrypts with the same library as `inf25-1.c`. It passes as many bytes
as were read, but prints what comes out as a string. -/
namespace SomeCode
namespace PlaintextPrinter

open Decryptor (Evp chained)
open ReadBuffer

/-- What one `read` returns; there is room for 16 bytes in `salt_with_name` and in `encoded`. -/
abbrev Read := Piece 16

variable {Ctx : Type}

/-- The loop and the calls behind it; `%.*s` prints up to the first zero. -/
def printLoop (e : Evp Ctx) : Ctx → List Read → List UInt8
  | ctx, [] => cString (e.final ctx)
  | ctx, r :: reads =>
    cString (e.update ctx r.bytes).1 ++ printLoop e (e.update ctx r.bytes).2 reads

/-- `main`: the first read fills `salt_with_name`, in which something stood before. -/
def main (e : Evp Ctx) (password : List UInt8) (salt_with_name : Bytes 16) :
    List Read → List UInt8
  | [] => printLoop e (e.init (salt_with_name.1.drop 8) password) []
  | r :: reads =>
    printLoop e (e.init ((fill salt_with_name r).1.drop 8) password) reads

/-- The plaintext of a file: its ciphertext stands behind a header whose second half is the salt. -/
def plaintext (e : Evp Ctx) (password file : List UInt8) : List UInt8 :=
  e.decrypt (e.init ((file.take 16).drop 8) password) (file.drop 16)

theorem printLoop_length (e : Evp Ctx) (ctx : Ctx) (reads : List Read) :
    (printLoop e ctx reads).length ≤ (e.output ctx (reads.map Piece.bytes)).length ∧
    ((printLoop e ctx reads).length = (e.output ctx (reads.map Piece.bytes)).length →
      0 ∉ e.output ctx (reads.map Piece.bytes)) := by
  induction reads generalizing ctx with
  | nil => exact ⟨cString_length_le _,cString_length_eq_iff.mp⟩
  | cons r reads ih =>
    obtain ⟨hle,hzero⟩ := ih (e.update ctx r.bytes).2
    have hfirst := cString_length_le (e.update ctx r.bytes).1
    rw [printLoop,List.map_cons,Evp.output_cons,List.length_append,List.length_append]
    constructor
    · exact Nat.add_le_add hfirst hle
    · intro h
      rw [List.mem_append,not_or]
      constructor
      · exact cString_length_eq_iff.mp (by omega)
      · exact hzero (by omega)

theorem printLoop_of_notMem (e : Evp Ctx) (ctx : Ctx) {reads : List Read}
    (h : 0 ∉ e.output ctx (reads.map Piece.bytes)) :
    printLoop e ctx reads = e.output ctx (reads.map Piece.bytes) := by
  induction reads generalizing ctx with
  | nil => exact cString_eq_self h
  | cons r reads ih =>
    rw [List.map_cons,Evp.output_cons,List.mem_append,not_or] at h
    rw [printLoop,List.map_cons,Evp.output_cons,cString_eq_self h.1,ih _ h.2]

theorem printLoop_eq_iff (e : Evp Ctx) (ctx : Ctx) (reads : List Read) :
    printLoop e ctx reads = e.output ctx (reads.map Piece.bytes) ↔
      0 ∉ e.output ctx (reads.map Piece.bytes) := by
  constructor
  · intro h
    exact (printLoop_length e ctx reads).2 (congrArg List.length h)
  · exact printLoop_of_notMem e ctx

/-- With the whole header in the first read the rest is the ciphertext, however it is read. -/
theorem main_eq_plaintext_iff {e : Evp Ctx} (he : e.Streaming) (password : List UInt8)
    (salt_with_name : Bytes 16) {r : Read} (hr : r.bytes.length = 16) (reads : List Read) :
    main e password salt_with_name (r :: reads) = plaintext e password (joined (r :: reads)) ↔
      0 ∉ plaintext e password (joined (r :: reads)) := by
  have htake : (joined (r :: reads)).take 16 = r.bytes := List.take_left' hr
  have hdrop : (joined (r :: reads)).drop 16 = (reads.map Piece.bytes).flatten :=
    (List.drop_left' hr).trans (joined_eq_flatten reads)
  rw [plaintext,htake,hdrop,← he,main,fill_of_length_eq salt_with_name hr]
  exact printLoop_eq_iff e _ reads

/-! A library that knows one ciphertext -/

def known (ciphertext pt : List UInt8) : Evp (List UInt8) where
  init _ _ := []
  update seen piece := ([],seen ++ piece)
  final seen := if seen = ciphertext then pt else 1 :: pt

theorem known_output (ciphertext pt seen : List UInt8) (pieces : List (List UInt8)) :
    (known ciphertext pt).output seen pieces =
      (known ciphertext pt).final (seen ++ pieces.flatten) := by
  induction pieces generalizing seen with
  | nil => rw [Evp.output_nil,List.flatten_nil,List.append_nil]
  | cons piece pieces ih =>
    have hnext := ih (seen ++ piece)
    rw [List.append_assoc] at hnext
    exact hnext

theorem known_streaming (ciphertext pt : List UInt8) : (known ciphertext pt).Streaming := by
  intro salt password pieces
  rw [Evp.decrypt,known_output,known_output,List.flatten_singleton]

theorem known_plaintext (password file pt : List UInt8) :
    plaintext (known (file.drop 16) pt) password file = pt := by
  rw [plaintext,Evp.decrypt,known_output,List.flatten_singleton]
  exact if_pos rfl

theorem printLoop_known (ciphertext pt seen : List UInt8) (reads : List Read) :
    printLoop (known ciphertext pt) seen reads =
      cString ((known ciphertext pt).final (seen ++ joined reads)) := by
  induction reads generalizing seen with
  | nil => rw [joined_nil,List.append_nil,printLoop]
  | cons r reads ih =>
    have hnext := ih (seen ++ r.bytes)
    rw [List.append_assoc] at hnext
    exact hnext

/-- Of a header that is read in parts the rest is taken for ciphertext. -/
theorem main_known_ne (password : List UInt8) (salt_with_name : Bytes 16) {r : Read}
    {reads : List Read} (hr : r.bytes.length ≠ 16) (hlen : 16 ≤ (joined (r :: reads)).length)
    (pt : List UInt8) :
    main (known ((joined (r :: reads)).drop 16) pt) password salt_with_name (r :: reads) ≠ pt := by
  have hle := r.length_le
  have hsplit : joined (r :: reads) = r.bytes ++ joined reads := rfl
  have hne : joined reads ≠ (joined (r :: reads)).drop 16 := fun heq => by
    have hcount := congrArg List.length heq
    rw [List.length_drop,hsplit,List.length_append] at hcount
    rw [hsplit,List.length_append] at hlen
    omega
  have hfinal : (known ((joined (r :: reads)).drop 16) pt).final ([] ++ joined reads) = 1 :: pt :=
    if_neg hne
  have hprinted := printLoop_known ((joined (r :: reads)).drop 16) pt [] reads
  rw [hfinal] at hprinted
  exact hprinted.trans_ne (cString_cons_ne (by decide) pt)

/-- With a library that decrypts, a plaintext is printed exactly if the first read returns the
whole header and there is no zero in the plaintext. -/
theorem main_prints_iff (password : List UInt8) (salt_with_name : Bytes 16) {reads : List Read}
    (h : 16 ≤ (joined reads).length) (pt : List UInt8) :
    (∀ (Ctx : Type) (e : Evp Ctx), e.Streaming → plaintext e password (joined reads) = pt →
      main e password salt_with_name reads = pt) ↔
    (∀ r ∈ reads.head?, r.bytes.length = 16) ∧ 0 ∉ pt := by
  rcases reads with _ | ⟨r,reads⟩
  · exact absurd h (by decide)
  · rw [List.head?_cons]
    constructor
    · intro hprints
      have hknown := hprints _ (known ((joined (r :: reads)).drop 16) pt) (known_streaming _ _)
        (known_plaintext _ _ _)
      by_cases hr : r.bytes.length = 16
      · have hzero := main_eq_plaintext_iff (known_streaming ((joined (r :: reads)).drop 16) pt)
          password salt_with_name hr reads
        rw [known_plaintext] at hzero
        exact ⟨fun q hq => Option.some.inj hq ▸ hr,hzero.mp hknown⟩
      · exact absurd hknown (main_known_ne password salt_with_name hr h pt)
    · rintro ⟨hr,hzero⟩ Ctx e he hpt
      rw [← hpt] at hzero ⊢
      exact (main_eq_plaintext_iff he password salt_with_name (hr r rfl) reads).mpr hzero

/-! The file of the password `secret` in which `ab`, a zero byte and `cd` are encrypted -/

/-- The block cipher under the key of this password, on the block of the file -/
def zeroBlock (c : List UInt8) : List UInt8 :=
  if c = [105,16,214,53,15,86,7,220,136,141,238,167,156,118,41,207] then
    [241,40,235,165,129,131,246,191,148,218,83,13,176,68,229,100]
  else []

def secret : Evp (List UInt8) := chained zeroBlock Decryptor.secretIv

def header : Read where
  bytes := Decryptor.secretHeader
  nonempty := List.cons_ne_nil _ _
  length_le := Nat.le_refl _

def encoded : Read where
  bytes := [105,16,214,53,15,86,7,220,136,141,238,167,156,118,41,207]
  nonempty := List.cons_ne_nil _ _
  length_le := Nat.le_refl _

def cleared : Bytes 16 := ⟨List.replicate 16 0,List.length_replicate⟩

/-- A longer file of the same password, in four reads -/
def dawn : List Read :=
  [header,⟨Decryptor.front.bytes.take 16,by decide,by decide⟩,
    ⟨Decryptor.front.bytes.drop 16,by decide,by decide⟩,
    ⟨Decryptor.shortRead.bytes,by decide,by decide⟩]

theorem main_prints_dawn : main Decryptor.secret Decryptor.password cleared dawn =
    "attack at dawn, hold the bridge till noon".toList.map (fun c => UInt8.ofNat c.toNat) := by
  have hsecret : Decryptor.secret.Streaming :=
    Decryptor.chained_streaming Decryptor.secretBlock Decryptor.secretIv
  have hheader : 16 ≤ (joined dawn).length := by decide
  exact (main_prints_iff Decryptor.password cleared hheader _).mpr
    ⟨by decide,by decide⟩ _ Decryptor.secret hsecret (by decide +kernel)

/-- Two of five bytes are printed. -/
theorem zero_not_printed : secret.Streaming ∧
    plaintext secret Decryptor.password (joined [header,encoded]) = [97,98,0,99,100] ∧
    main secret Decryptor.password cleared [header,encoded] = [97,98] :=
  ⟨Decryptor.chained_streaming zeroBlock Decryptor.secretIv,by decide +kernel,by decide +kernel⟩

end PlaintextPrinter
end SomeCode
