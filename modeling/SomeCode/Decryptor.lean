import Mathlib

/-! `decrypt_input` of `inf25-1.c`. The library that decrypts is a parameter; what is relied on is
that its joined output depends on the joined input alone. -/
namespace SomeCode
namespace Decryptor

/-- The calls of the library: `init` is `EVP_BytesToKey` and `EVP_DecryptInit_ex`. -/
structure Evp (Ctx : Type) where
  init : (salt password : List UInt8) → Ctx
  update : Ctx → List UInt8 → List UInt8 × Ctx
  final : Ctx → List UInt8

namespace Evp

variable {Ctx : Type} (e : Evp Ctx)

/-- What comes out while some pieces are passed, and at the end -/
def output : Ctx → List (List UInt8) → List UInt8
  | ctx, [] => e.final ctx
  | ctx, piece :: pieces => (e.update ctx piece).1 ++ output (e.update ctx piece).2 pieces

@[simp] theorem output_nil (ctx : Ctx) : e.output ctx [] = e.final ctx := rfl

@[simp] theorem output_cons (ctx : Ctx) (piece : List UInt8) (pieces : List (List UInt8)) :
    e.output ctx (piece :: pieces) =
      (e.update ctx piece).1 ++ e.output (e.update ctx piece).2 pieces := rfl

/-- The plaintext: everything is passed at once. -/
def decrypt (ctx : Ctx) (ciphertext : List UInt8) : List UInt8 := e.output ctx [ciphertext]

/-- How the input is cut into pieces does not matter. -/
def Streaming : Prop :=
  ∀ salt password pieces,
    e.output (e.init salt password) pieces = e.decrypt (e.init salt password) pieces.flatten

end Evp

structure Read where
  bytes : List UInt8
  nonempty : bytes ≠ []
  length_le : bytes.length ≤ 32

/-- `buffer`, with the bytes of an earlier read in it -/
abbrev Buffer := {bytes : List UInt8 // bytes.length = 32}

theorem store_length (buffer : Buffer) (r : Read) :
    (r.bytes ++ buffer.1.drop r.bytes.length).length = 32 := by
  have hle := r.length_le
  rw [List.length_append,List.length_drop,buffer.2]
  omega

/-- A read fills the front of the buffer. -/
def Buffer.store (buffer : Buffer) (r : Read) : Buffer :=
  ⟨r.bytes ++ buffer.1.drop r.bytes.length,store_length buffer r⟩

variable {Ctx : Type}

structure Outcome where
  passed : List (List UInt8)
  written : List UInt8

/-- The loop and the calls behind it: `EVP_DecryptUpdate` is given `BLOCK` bytes, however many
were read. -/
def decryptLoop (e : Evp Ctx) : Ctx → Buffer → List Read → Outcome
  | ctx, _, [] => ⟨[],e.final ctx⟩
  | ctx, buffer, r :: reads =>
    let result := e.update ctx (buffer.store r).1
    let rest := decryptLoop e result.2 (buffer.store r) reads
    ⟨(buffer.store r).1 :: rest.passed,result.1 ++ rest.written⟩

/-- `decrypt_input`: eight bytes of the header are skipped. -/
def decryptInput (e : Evp Ctx) (password salt : List UInt8) (buffer : Buffer) (reads : List Read) :
    Outcome :=
  decryptLoop e (e.init (salt.drop 8) password) buffer reads

def ciphertext (reads : List Read) : List UInt8 := (reads.map Read.bytes).flatten

theorem written_eq (e : Evp Ctx) (ctx : Ctx) (buffer : Buffer) (reads : List Read) :
    (decryptLoop e ctx buffer reads).written =
      e.output ctx (decryptLoop e ctx buffer reads).passed := by
  induction reads generalizing ctx buffer with
  | nil => rfl
  | cons r reads ih => simp [decryptLoop,ih]

theorem passed_length (e : Evp Ctx) (ctx : Ctx) (buffer : Buffer) (reads : List Read) :
    (decryptLoop e ctx buffer reads).passed.flatten.length = 32*reads.length := by
  induction reads generalizing ctx buffer with
  | nil => rfl
  | cons r reads ih =>
    rw [decryptLoop,List.flatten_cons,List.length_append,ih,(buffer.store r).2,List.length_cons]
    omega

theorem passed_of_full (e : Evp Ctx) (ctx : Ctx) (buffer : Buffer) {reads : List Read}
    (h : ∀ r ∈ reads, r.bytes.length = 32) :
    (decryptLoop e ctx buffer reads).passed.flatten = ciphertext reads := by
  induction reads generalizing ctx buffer with
  | nil => rfl
  | cons r reads ih =>
    have hr := h r List.mem_cons_self
    have hstore : (buffer.store r).1 = r.bytes := by
      change r.bytes ++ buffer.1.drop r.bytes.length = r.bytes
      rw [hr,List.drop_of_length_le buffer.2.le,List.append_nil]
    have hrest := ih (e.update ctx (buffer.store r).1).2 (buffer.store r)
      fun q hq => h q (List.mem_cons_of_mem _ hq)
    rw [decryptLoop,List.flatten_cons,hrest,hstore]
    rfl

/-- A short read leaves fewer bytes than are passed. -/
theorem ciphertext_length_lt {reads : List Read} (h : ∃ r ∈ reads, r.bytes.length ≠ 32) :
    (ciphertext reads).length < 32*reads.length := by
  have hle : ∀ reads : List Read, (ciphertext reads).length ≤ 32*reads.length := by
    intro reads
    induction reads with
    | nil => exact Nat.le_refl _
    | cons r reads ih =>
      have hr := r.length_le
      rw [ciphertext,List.map_cons,List.flatten_cons,List.length_append,List.length_cons]
      exact (Nat.add_le_add hr ih).trans_eq (by omega)
  obtain ⟨r,hmem,hshort⟩ := h
  obtain ⟨before,after,rfl⟩ := List.append_of_mem hmem
  have hr := r.length_le
  have hbefore := hle before
  have hafter := hle after
  simp only [ciphertext,List.map_append,List.map_cons,List.flatten_append,List.flatten_cons,
    List.length_append,List.length_cons] at hbefore hafter ⊢
  omega

/-- The ciphertext is passed on and its plaintext written when every read fills the buffer. -/
theorem decryptInput_correct_iff {e : Evp Ctx} (he : e.Streaming) (password salt : List UInt8)
    (buffer : Buffer) (reads : List Read) :
    ((decryptInput e password salt buffer reads).passed.flatten = ciphertext reads ∧
      (decryptInput e password salt buffer reads).written =
        e.decrypt (e.init (salt.drop 8) password) (ciphertext reads)) ↔
    ∀ r ∈ reads, r.bytes.length = 32 := by
  constructor
  · rintro ⟨hpassed,-⟩ r hr
    by_contra hshort
    have hlt := ciphertext_length_lt ⟨r,hr,hshort⟩
    rw [← hpassed,decryptInput,passed_length] at hlt
    exact Nat.lt_irrefl _ hlt
  · intro hfull
    have hpassed := passed_of_full e (e.init (salt.drop 8) password) buffer hfull
    refine ⟨hpassed,?_⟩
    rw [decryptInput,written_eq,he,hpassed]

/-! Decryption of chained blocks, as the library does it: the last block is held back, since the
padding is taken off at the end. -/

/-- The first `n` blocks behind `prev` -/
def decryptBlocks (block : List UInt8 → List UInt8) : List UInt8 → ℕ → List UInt8 → List UInt8
  | _, 0, _ => []
  | prev, n+1, c =>
    List.zipWith (· ^^^ ·) (block (c.take 16)) prev ++ decryptBlocks block (c.take 16) n (c.drop 16)

/-- Without the padding; nothing where the padding is wrong -/
def unpad (last : List UInt8) : List UInt8 :=
  let n := (last.getLastD 0).toNat
  if 0 < n ∧ n ≤ 16 ∧ last.drop (16-n) = List.replicate n (last.getLastD 0) then last.take (16-n)
  else []

section Chain

variable (block : List UInt8 → List UInt8) (iv : List UInt8)

def released (seen : List UInt8) : List UInt8 :=
  decryptBlocks block iv ((seen.length-1)/16) seen

/-- The state is what has been passed so far. -/
def chained : Evp (List UInt8) where
  init _ _ := []
  update seen piece :=
    ((released block iv (seen ++ piece)).drop (released block iv seen).length,seen ++ piece)
  final seen :=
    if seen.length % 16 = 0 then
      unpad ((decryptBlocks block iv (seen.length/16) seen).drop (released block iv seen).length)
    else []

theorem decryptBlocks_isPrefix (prev : List UInt8) {m n : ℕ} (hle : m ≤ n) {c : List UInt8}
    (hlen : 16*m ≤ c.length) (more : List UInt8) :
    decryptBlocks block prev m c <+: decryptBlocks block prev n (c ++ more) := by
  induction m generalizing prev n c with
  | zero => exact List.nil_prefix
  | succ m ih =>
    have hpos : 0 < n := Nat.lt_of_lt_of_le m.succ_pos hle
    obtain ⟨n,rfl⟩ := Nat.exists_eq_add_one_of_ne_zero (Nat.ne_of_gt hpos)
    have hfront : 16 ≤ c.length := by omega
    rw [decryptBlocks,decryptBlocks,List.take_append_of_le_length hfront,
      List.drop_append_of_le_length hfront,List.prefix_append_right_inj]
    exact ih _ (Nat.le_of_succ_le_succ hle) (by rw [List.length_drop]; omega)

theorem released_append (seen piece : List UInt8) : released block iv seen ++
    (released block iv (seen ++ piece)).drop (released block iv seen).length =
      released block iv (seen ++ piece) := by
  have hle : (seen.length-1)/16 ≤ ((seen ++ piece).length-1)/16 := by
    rw [List.length_append]
    omega
  obtain ⟨rest,hrest⟩ := decryptBlocks_isPrefix block iv hle (c := seen) (by omega) piece
  have hwhole : released block iv (seen ++ piece) = released block iv seen ++ rest := hrest.symm
  rw [hwhole,List.drop_left]

theorem released_append_output (seen : List UInt8) (pieces : List (List UInt8)) :
    released block iv seen ++ (chained block iv).output seen pieces =
      released block iv (seen ++ pieces.flatten) ++ (chained block iv).final (seen ++ pieces.flatten) := by
  induction pieces generalizing seen with
  | nil => simp
  | cons piece pieces ih =>
    have hnext := ih (seen ++ piece)
    rw [Evp.output_cons,← List.append_assoc,List.flatten_cons,← List.append_assoc,← hnext]
    exact congrArg (· ++ _) (released_append block iv seen piece)

theorem chained_streaming : (chained block iv).Streaming := by
  intro salt password pieces
  have hwhole := released_append_output block iv [] pieces
  have honce := released_append_output block iv [] [pieces.flatten]
  have hnone : released block iv [] = [] := rfl
  rw [hnone,List.nil_append,List.nil_append] at hwhole honce
  rw [List.flatten_singleton] at honce
  exact hwhole.trans honce.symm

end Chain

/-! The password `secret` with a salt of the eight bytes 1, 2, .. , 8 -/

/-- The block cipher under the key of this password, on the blocks that are met here -/
def secretBlock (c : List UInt8) : List UInt8 :=
  if c = [236,49,166,82,76,89,231,16,98,5,157,137,117,64,19,97] then
    [241,62,159,167,134,227,221,213,235,241,60,103,204,33,194,79]
  else if c = [237,0,109,144,105,9,120,84,39,121,64,162,178,18,95,164] then
    [132,94,202,54,64,85,235,28,110,9,145,133,121,76,31,109]
  else if c = [27,234,161,213,189,200,49,139,101,10,134,216,158,54,176,168] then
    [132,94,202,54,108,45,143,117,66,103,239,224,17,39,118,65]
  else if c = [86,169,82,12,200,242,222,209,34,82,117,11,184,211,121,153] then
    [111,131,205,185,157,166,94,228,11,13,129,223,153,49,183,175]
  else []

def secretIv : List UInt8 := [144,74,235,198,229,136,253,180,159,209,88,6,187,79,238,111]

def secret : Evp (List UInt8) := chained secretBlock secretIv

def secretHeader : List UInt8 := [83,97,108,116,101,100,95,95,1,2,3,4,5,6,7,8]

def password : List UInt8 := [115,101,99,114,101,116]

def cleared : Buffer := ⟨List.replicate 32 0,List.length_replicate⟩

def fullRead : Read where
  bytes := [236,49,166,82,76,89,231,16,98,5,157,137,117,64,19,97,
    237,0,109,144,105,9,120,84,39,121,64,162,178,18,95,164]
  nonempty := List.cons_ne_nil _ _
  length_le := Nat.le_refl _

def front : Read where
  bytes := [236,49,166,82,76,89,231,16,98,5,157,137,117,64,19,97,
    27,234,161,213,189,200,49,139,101,10,134,216,158,54,176,168]
  nonempty := List.cons_ne_nil _ _
  length_le := Nat.le_refl _

def shortRead : Read where
  bytes := [86,169,82,12,200,242,222,209,34,82,117,11,184,211,121,153]
  nonempty := List.cons_ne_nil _ _
  length_le := Nat.le_add_left 16 16

theorem decryptInput_correct_fullRead :
    ((decryptInput secret password secretHeader cleared [fullRead]).passed.flatten =
      ciphertext [fullRead] ∧
      (decryptInput secret password secretHeader cleared [fullRead]).written =
        secret.decrypt (secret.init (secretHeader.drop 8) password) (ciphertext [fullRead])) ↔
    ∀ r ∈ [fullRead], r.bytes.length = 32 :=
  decryptInput_correct_iff (chained_streaming secretBlock secretIv) password secretHeader cleared
    [fullRead]

/-- What `attack at dawn, hold the bridge till noon` becomes: the padding is written as well. -/
theorem shortRead_not_decrypted :
    (decryptInput secret password secretHeader cleared [front,shortRead]).passed.flatten ≠
      ciphertext [front,shortRead] ∧
    secret.decrypt (secret.init (secretHeader.drop 8) password) (ciphertext [front,shortRead]) =
      "attack at dawn, hold the bridge till noon".toList.map (fun c => UInt8.ofNat c.toNat) ∧
    (decryptInput secret password secretHeader cleared [front,shortRead]).written =
      "attack at dawn, hold the bridge till noon".toList.map (fun c => UInt8.ofNat c.toNat) ++
        List.replicate 7 7 := by
  decide +kernel

end Decryptor
end SomeCode
