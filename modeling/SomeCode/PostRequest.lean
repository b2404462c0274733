import SomeCode.ReadBuffer
import SomeCode.HttpServer
import SomeCode.Decimal
import SomeCode.MachineInt

/-! The sending half of `inf23-1.c`. The head of the request is put together in an array of
`MAX_SIZE` bytes, the file is sent behind it, and a line end behind the file. -/
namespace SomeCode
namespace PostRequest

open ReadBuffer Decimal
open HttpServer (text crlf)

/-- What `snprintf` leaves in an array, and what it returns: how long the whole text is, unless
that is not an `int`. -/
def snprintf {n : ℕ} (a : Bytes (n+1)) (l : List UInt8) : Bytes (n+1) × ℤ :=
  (store a (l.take n) (Nat.lt_succ_of_le (List.length_take_le n l)),
    if l.length < 2^31 then l.length else -1)

/-- `write` from an array; none when bytes outside of it are read -/
def write {n : ℕ} (a : Bytes n) (count : ℕ) : Option (List UInt8) :=
  if count ≤ n then some (a.1.take count) else none

def format (path name : List UInt8) (sz : ℕ) : List UInt8 :=
  text "POST " ++ path ++ text " HTTP/1.1\r\n" ++
    text "Host: " ++ name ++ text "\r\n" ++
    text "Content-Type: multipart/form-data\r\n" ++
    text "User-Agent: Mozilla/5.0\r\n" ++
    text "Connection: close\r\n" ++
    text "Content-Length: " ++ decimal sz ++ text "\r\n\r\n"

/-- What `main` writes to the socket; `sendfile` sends the whole range. -/
def main (request : Bytes 4096) (path name content : List UInt8) : Option (List UInt8) := do
  let sz := content.length
  let (request,size) := snprintf request (format path name sz)
  let head ← write request (MachineInt.unsigned 64 size)
  return head ++ content.take sz ++ crlf

/-! The request -/

def headLines (path name : List UInt8) (announced : ℕ) : List (List UInt8) :=
  [text "POST " ++ path ++ text " HTTP/1.1",text "Host: " ++ name,
    text "Content-Type: multipart/form-data",text "User-Agent: Mozilla/5.0",
    text "Connection: close",text "Content-Length: " ++ decimal announced]

def head (path name : List UInt8) (announced : ℕ) : List UInt8 :=
  (headLines path name announced).flatMap (· ++ crlf) ++ crlf

def post (path name body : List UInt8) : List UInt8 := head path name body.length ++ body

theorem format_eq_head (path name : List UInt8) (sz : ℕ) :
    format path name sz = head path name sz := by
  have hversion : text " HTTP/1.1\r\n" = text " HTTP/1.1" ++ crlf := by decide
  have hname : text "\r\n" = crlf := by decide
  have htype : text "Content-Type: multipart/form-data\r\n" =
      text "Content-Type: multipart/form-data" ++ crlf := by decide
  have hagent : text "User-Agent: Mozilla/5.0\r\n" = text "User-Agent: Mozilla/5.0" ++ crlf := by
    decide
  have hclose : text "Connection: close\r\n" = text "Connection: close" ++ crlf := by decide
  have hempty : text "\r\n\r\n" = crlf ++ crlf := by decide
  rw [format,head,headLines,hversion,hname,htype,hagent,hclose,hempty]
  simp only [List.flatMap_cons,List.flatMap_nil,List.append_assoc,List.append_nil]

/-- What is sent for the head: a longer one loses its last byte, and one that is longer still is
read from outside of the array. -/
theorem write_snprintf (a : Bytes 4096) (l : List UInt8) :
    write (snprintf a l).1 (MachineInt.unsigned 64 (snprintf a l).2) =
      if l.length ≤ 4095 then some l
      else if l.length = 4096 then some (l.take 4095 ++ [0]) else none := by
  have hstored : (snprintf a l).1.1 =
      l.take 4095 ++ 0 :: a.1.drop ((l.take 4095).length+1) := rfl
  by_cases hint : l.length < 2^31
  · have hcount : MachineInt.unsigned 64 (snprintf a l).2 = l.length := by
      rw [snprintf,if_pos hint,MachineInt.unsigned]
      omega
    rw [write,hcount,hstored]
    rcases Nat.lt_trichotomy l.length 4096 with hlt | heq | hgt
    · have hfits : l.length ≤ 4095 := Nat.le_of_lt_succ hlt
      rw [if_pos hlt.le,if_pos hfits,List.take_of_length_le hfits,List.take_left]
    · have hlen : (l.take 4095).length = 4095 := by rw [List.length_take,heq]; rfl
      rw [if_pos heq.le,if_neg (by omega),if_pos heq,heq,hlen,
        ← List.singleton_append,← List.append_assoc,List.take_left' (by simp [hlen])]
    · rw [if_neg (by omega),if_neg (by omega),if_neg (by omega)]
  · have hcount : MachineInt.unsigned 64 (snprintf a l).2 = 2^64-1 := by
      rw [snprintf,if_neg hint]
      rfl
    rw [write,hcount,if_neg (by omega),if_neg (by omega),if_neg (by omega)]

theorem main_eq (request : Bytes 4096) (path name content : List UInt8) :
    main request path name content =
      (write (snprintf request (head path name content.length)).1
        (MachineInt.unsigned 64 (snprintf request (head path name content.length)).2)).map
        (· ++ content ++ crlf) := by
  rw [main,format_eq_head,List.take_length,Option.map_eq_bind]
  rfl

theorem getLast_head (path name : List UInt8) (sz : ℕ) : (head path name sz).getLast? = some 10 := by
  rw [head,List.getLast?_append]
  rfl

theorem take_ne_head (path name : List UInt8) (sz n : ℕ) :
    (head path name sz).take n ++ [0] ≠ head path name sz := by
  intro heq
  have hlast := getLast_head path name sz
  rw [← heq,List.getLast?_concat] at hlast
  exact absurd hlast (by decide)

theorem length_of_main {request : Bytes 4096} {path name content sent : List UInt8}
    (h : main request path name content = some sent) :
    sent.length = (post path name content).length+2 := by
  rw [main_eq,write_snprintf] at h
  obtain ⟨l,hl,rfl⟩ := Option.map_eq_some_iff.mp h
  have hlen : l.length = (head path name content.length).length := by
    split at hl
    next => rw [Option.some.inj hl]
    next =>
      split at hl
      next heq =>
        rw [← Option.some.inj hl,List.length_append,List.length_take,heq]
        rfl
      next => exact absurd hl (by simp)
  rw [post,List.length_append,List.length_append,hlen,List.length_append]
  rfl

/-- No request is sent as its head announces it. With two bytes more it is sent exactly if the head
fits into the array together with the end of the string. -/
theorem post_not_sent (request : Bytes 4096) (path name content : List UInt8) :
    main request path name content ≠ some (post path name content) ∧
    (main request path name content = some (post path name content ++ crlf) ↔
      (head path name content.length).length ≤ 4095) := by
  constructor
  · intro h
    have hlen := length_of_main h
    omega
  · rw [main_eq,write_snprintf]
    constructor
    · intro h
      obtain ⟨l,hl,hsent⟩ := Option.map_eq_some_iff.mp h
      obtain rfl : l = head path name content.length := by
        rw [post] at hsent
        exact List.append_cancel_right (List.append_cancel_right hsent)
      by_contra hlong
      rw [if_neg hlong] at hl
      split at hl
      next => exact take_ne_head path name content.length 4095 (Option.some.inj hl)
      next => exact absurd hl (by simp)
    · intro h
      rw [if_pos h]
      rfl

def cleared : Bytes 4096 := ⟨List.replicate 4096 0,List.length_replicate⟩

/-- A file of two bytes -/
theorem hello_not_sent :
    main cleared (text "/") (text "localhost") (text "hi") =
      some (post (text "/") (text "localhost") (text "hi") ++ crlf) ∧
    main cleared (text "/") (text "localhost") (text "hi") ≠
      some (post (text "/") (text "localhost") (text "hi")) := by
  decide +kernel

end PostRequest
end SomeCode
