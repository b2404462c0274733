import SomeCode.HttpServer

/-! What `read_and_write` of `inf16-1.c` sends, as a response of lines and a body. A file is sent
in a response of its length; what is sent besides has two bytes behind the empty line. -/
namespace SomeCode
namespace HttpServer

open Stdio PathWalk

structure Response where
  status : List UInt8
  headers : List (List UInt8)
  body : List UInt8

def Response.bytes (r : Response) : List UInt8 :=
  (r.status :: r.headers).flatMap (· ++ crlf) ++ (crlf ++ r.body)

/-- A line is not empty, and ends nowhere before its end. -/
def IsLine (line : List UInt8) : Prop := line ≠ [] ∧ 13 ∉ line ∧ 10 ∉ line

instance (line : List UInt8) : Decidable (IsLine line) := inferInstanceAs (Decidable (_ ∧ _))

def contentLength (n : ℕ) : List UInt8 := text "Content-Length: " ++ text (toString n)

/-- The header announces the length of the body, and no other one. -/
structure Response.Framed (r : Response) : Prop where
  lines : ∀ line ∈ r.status :: r.headers, IsLine line
  length : ∀ n, contentLength n ∈ r.headers ↔ n = r.body.length

theorem append_cr_inj {a b x y : List UInt8} (ha : 13 ∉ a) (hb : 13 ∉ b)
    (h : a ++ 13 :: x = b ++ 13 :: y) : a = b ∧ x = y := by
  induction a generalizing b with
  | nil =>
    obtain _ | ⟨d,b⟩ := b
    · exact ⟨rfl,(List.cons.inj h).2⟩
    · exact absurd ((List.cons.inj h).1 ▸ List.mem_cons_self) hb
  | cons c a ih =>
    obtain _ | ⟨d,b⟩ := b
    · exact absurd ((List.cons.inj h).1 ▸ List.mem_cons_self) ha
    · obtain ⟨rfl,hrest⟩ := List.cons.inj h
      obtain ⟨rfl,rfl⟩ := ih (fun h => ha (List.mem_cons_of_mem _ h))
        (fun h => hb (List.mem_cons_of_mem _ h)) hrest
      exact ⟨rfl,rfl⟩

theorem crlf_ne_line {line : List UInt8} (h : IsLine line) (x y : List UInt8) :
    crlf ++ x ≠ line ++ y := by
  intro heq
  obtain ⟨c,line,rfl⟩ := List.exists_cons_of_ne_nil h.1
  obtain rfl : 13 = c := by simpa [crlf] using congrArg List.head? heq
  exact h.2.1 List.mem_cons_self

theorem lines_inj {ls ms : List (List UInt8)} {x y : List UInt8} (hl : ∀ l ∈ ls, IsLine l)
    (hm : ∀ m ∈ ms, IsLine m)
    (h : ls.flatMap (· ++ crlf) ++ (crlf ++ x) = ms.flatMap (· ++ crlf) ++ (crlf ++ y)) :
    ls = ms ∧ x = y := by
  induction ls generalizing ms with
  | nil =>
    obtain _ | ⟨m,ms⟩ := ms
    · simpa using h
    · simp only [List.flatMap_nil,List.nil_append,List.flatMap_cons,List.append_assoc] at h
      exact absurd h (crlf_ne_line (hm m List.mem_cons_self) _ _)
  | cons l ls ih =>
    obtain _ | ⟨m,ms⟩ := ms
    · simp only [List.flatMap_nil,List.nil_append,List.flatMap_cons,List.append_assoc] at h
      exact absurd h.symm (crlf_ne_line (hl l List.mem_cons_self) _ _)
    · simp only [List.flatMap_cons,List.append_assoc] at h
      have hcut : l ++ 13 :: 10 :: (ls.flatMap (· ++ crlf) ++ (crlf ++ x)) =
          m ++ 13 :: 10 :: (ms.flatMap (· ++ crlf) ++ (crlf ++ y)) := h
      obtain ⟨rfl,hrest⟩ := append_cr_inj (hl l List.mem_cons_self).2.1
        (hm m List.mem_cons_self).2.1 hcut
      obtain ⟨rfl,rfl⟩ := ih (fun l h => hl l (List.mem_cons_of_mem _ h))
        (fun m h => hm m (List.mem_cons_of_mem _ h)) (List.cons.inj hrest).2
      exact ⟨rfl,rfl⟩

/-- The bytes of a response can be taken apart in one way. -/
theorem Response.bytes_inj {r r' : Response} (h : ∀ line ∈ r.status :: r.headers, IsLine line)
    (h' : ∀ line ∈ r'.status :: r'.headers, IsLine line) (hbytes : r.bytes = r'.bytes) :
    r = r' := by
  obtain ⟨hlines,hbody⟩ := lines_inj h h' hbytes
  obtain ⟨status,headers,body⟩ := r
  obtain ⟨status',headers',body'⟩ := r'
  obtain ⟨rfl,rfl⟩ := List.cons.inj hlines
  obtain rfl := hbody
  rfl

/-! Numbers in headers -/

theorem toNat_digit {n : ℕ} {d : Char} (h : d ∈ (toString n).toList) :
    48 ≤ d.toNat ∧ (UInt8.ofNat d.toNat).toNat = d.toNat := by
  rw [Nat.toString_eq_repr,Nat.toList_repr] at h
  have hdigit := Nat.isDigit_of_mem_toDigits (by decide) (by decide) h
  have hrange : 48 ≤ d.toNat ∧ d.toNat ≤ 57 := by
    simpa [Char.isDigit,UInt32.le_iff_toNat_le] using hdigit
  rw [UInt8.toNat_ofNat']
  omega

theorem text_toString_inj {a b : ℕ} (h : text (toString a) = text (toString b)) : a = b := by
  have hback : ∀ n : ℕ, (text (toString n)).map (fun c => Char.ofNat c.toNat) =
      Nat.toDigits 10 n := by
    intro n
    have hid : ∀ d ∈ (toString n).toList, Char.ofNat (UInt8.ofNat d.toNat).toNat = d := by
      intro d hd
      rw [(toNat_digit hd).2,Char.ofNat_toNat]
    rw [text,List.map_map,← Nat.toList_repr,← Nat.toString_eq_repr]
    exact (List.map_congr_left hid).trans (List.map_id' _)
  have hdigits := congrArg (List.map fun c => Char.ofNat c.toNat) h
  rw [hback,hback] at hdigits
  have hvalue := congrArg (fun l => Nat.ofDigitChars 10 l 0) hdigits
  simpa [Nat.ofDigitChars_toDigits] using hvalue

theorem isLine_contentLength (n : ℕ) : IsLine (contentLength n) := by
  have hdigits : ∀ c ∈ text (toString n), 48 ≤ c.toNat := by
    intro c hc
    obtain ⟨d,hd,rfl⟩ := List.mem_map.mp hc
    rw [(toNat_digit hd).2]
    exact (toNat_digit hd).1
  refine ⟨by simp [contentLength,text],fun h => ?_,fun h => ?_⟩
  · obtain h | h := List.mem_append.mp h
    · exact absurd h (by decide)
    · exact absurd (hdigits 13 h) (by decide)
  · obtain h | h := List.mem_append.mp h
    · exact absurd h (by decide)
    · exact absurd (hdigits 10 h) (by decide)

theorem contentLength_inj {a b : ℕ} : contentLength a = contentLength b ↔ a = b := by
  constructor
  · intro h
    exact text_toString_inj (List.append_cancel_left h)
  · rintro rfl
    rfl

/-! The branches of `read_and_write` -/

/-- The status and the body are the ones for what a path leads to, a directory apart. -/
def Response.Answers (found : Option Found) (r : Response) : Prop :=
  match found with
  | some (.file f) =>
    if f.readable then r.status = text "HTTP/1.1 200 OK" ∧ r.body = f.content
    else r.status = text "HTTP/1.1 403 Forbidden" ∧ r.body = []
  | some (.directory _) => True
  | none => r.status = text "HTTP/1.1 404 Not Found" ∧ r.body = []

/-- What is sent is one response, well framed. -/
def WellAnswered (found : Option Found) (sent : Option (List UInt8)) : Prop :=
  ∃ r : Response, sent = some r.bytes ∧ r.Framed ∧ r.Answers found

def refusal (status : List UInt8) : Response := ⟨status,[contentLength 0],crlf⟩

theorem answer_none : answer none = some (refusal (text "HTTP/1.1 404 Not Found")).bytes := by
  decide

theorem answer_inaccessible {node : Found} (h : accessible node = false) :
    answer (some node) = some (refusal (text "HTTP/1.1 403 Forbidden")).bytes := by
  rw [answer,if_neg (by simp [h])]
  decide

theorem refusal_not_framed {status : List UInt8} (h : IsLine status) {found : Option Found} :
    ¬ WellAnswered found (some (refusal status).bytes) := by
  rintro ⟨r,hbytes,hframed,-⟩
  have hlines : ∀ line ∈ (refusal status).status :: (refusal status).headers, IsLine line := by
    intro line hline
    obtain rfl | hline := List.mem_cons.mp hline
    · exact h
    · obtain rfl := List.mem_singleton.mp hline
      exact isLine_contentLength 0
  obtain rfl := Response.bytes_inj hframed.lines hlines (Option.some.inj hbytes).symm
  have hlength : 0 = crlf.length := (hframed.length 0).mp (List.mem_singleton.mpr rfl)
  exact absurd hlength (by decide)

/-- The response with a file, of which `n` bytes are announced -/
def filePart (n : ℕ) (body : List UInt8) : Response :=
  ⟨text "HTTP/1.1 200 OK",[contentLength n],body⟩

theorem filePart_lines (n : ℕ) (body : List UInt8) :
    ∀ line ∈ (filePart n body).status :: (filePart n body).headers, IsLine line := by
  intro line hline
  obtain rfl | hline := List.mem_cons.mp hline
  · exact (by decide : IsLine (text "HTTP/1.1 200 OK"))
  · obtain rfl := List.mem_singleton.mp hline
    exact isLine_contentLength n

theorem filePart_framed (body : List UInt8) : (filePart body.length body).Framed where
  lines := filePart_lines _ _
  length n := by simp [filePart,contentLength_inj]

theorem length_readTwice {content : List UInt8} {n : ℕ} (h : n ≤ content.length) :
    (readTwice content n).length = n := by
  simp only [readTwice,List.length_append,List.length_drop,List.length_take]
  omega

theorem sendFile_of_nonneg {f : Regular} {n : ℕ}
    (h : MachineInt.wrap 32 f.content.length = n) :
    sendFile (.file f) = some (filePart n (readTwice f.content n)).bytes := by
  have hneg : ¬ MachineInt.wrap 32 f.content.length < 0 := by omega
  have hnumber : toString (n : ℤ) = toString n := rfl
  rw [sendFile,if_neg hneg,h,hnumber,Int.toNat_natCast]
  simp [filePart,Response.bytes,contentLength,text,crlf]

theorem sendFile_eq (f : Regular) :
    sendFile (.file f) = none ∨ ∃ n body, sendFile (.file f) = some (filePart n body).bytes ∧
      n < 2^31 ∧ body.length = n := by
  by_cases hneg : MachineInt.wrap 32 f.content.length < 0
  · refine .inl ?_
    rw [sendFile,if_pos hneg]
  have hlt := MachineInt.wrap_lt 31 f.content.length
  have hle : MachineInt.wrap 32 f.content.length ≤ f.content.length := by
    rw [MachineInt.wrap,Int.bmod_def]
    split <;> omega
  obtain ⟨n,hn⟩ := Int.eq_ofNat_of_zero_le (not_lt.mp hneg)
  rw [hn] at hlt hle
  exact .inr ⟨n,readTwice f.content n,sendFile_of_nonneg hn,by omega,length_readTwice (by omega)⟩

theorem sendFile_of_lt {f : Regular} (h : f.content.length < 2^31) :
    sendFile (.file f) = some (filePart f.content.length f.content).bytes := by
  have hwhole : readTwice f.content f.content.length = f.content := by simp [readTwice]
  have hsize : MachineInt.wrap 32 f.content.length = f.content.length :=
    MachineInt.wrap_eq (by omega) (by omega)
  rw [sendFile_of_nonneg hsize,hwhole]

/-- The answer is well framed if and only if it is a file that is sent. -/
theorem answer_framed_iff (found : Option Found) : WellAnswered found (answer found) ↔
    ∃ content, found = some (.file ⟨true,content⟩) ∧ content.length < 2^31 := by
  constructor
  · intro h
    obtain _ | node := found
    · rw [answer_none] at h
      exact absurd h (refusal_not_framed (by decide))
    cases haccess : accessible node with
    | false =>
      rw [answer_inaccessible haccess] at h
      exact absurd h (refusal_not_framed (by decide))
    | true =>
      rw [answer,if_pos haccess] at h
      cases node with
      | directory readable =>
        obtain ⟨r,hsent,-⟩ := h
        simp [sendFile] at hsent
      | file f =>
        obtain ⟨readable,content⟩ := f
        obtain rfl : readable = true := haccess
        refine ⟨content,rfl,?_⟩
        obtain ⟨r,hsent,hframed,hanswers⟩ := h
        obtain hnone | ⟨n,body,hsome,hn,hbody⟩ := sendFile_eq ⟨true,content⟩
        · simp [hnone] at hsent
        rw [hsome] at hsent
        obtain rfl := Response.bytes_inj hframed.lines (filePart_lines n body)
          (Option.some.inj hsent).symm
        obtain rfl : body = content := by simpa [Response.Answers,filePart] using hanswers
        rwa [hbody]
  · rintro ⟨content,rfl,hsize⟩
    have haccess : accessible (.file ⟨true,content⟩) = true := rfl
    refine ⟨filePart content.length content,?_,filePart_framed content,?_⟩
    · rw [answer,if_pos haccess,sendFile_of_lt hsize]
    · simp [Response.Answers,filePart]

end HttpServer
end SomeCode
