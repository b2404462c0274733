import SomeCode.ReadBuffer
import SomeCode.HttpServer

/-! `inf14-0.c`: a real-time signal names one of the arguments, and the first line of that file is
written. The end of the line is looked for in the buffer without a bound. -/
namespace SomeCode
namespace SignalReader

open Stdio ReadBuffer
open HttpServer (text)

def sigrtmin : ℕ := 34

def sigrtmax : ℕ := 64

/-- A signal that `sigwaitinfo` returns, with what can then be read of
`argv[received_signal - SIGRTMIN]`, if `fopen` succeeds, and what stands in `first_string` -/
structure Signal where
  number : ℕ
  content : Option (List UInt8)
  garbage : Bytes 4096

/-- `fgets` stored so many bytes, the scan ended at `size`, and this was written. -/
structure Written where
  stored : ℕ
  size : ℕ
  bytes : List UInt8
deriving DecidableEq

/-- The branch of a handled signal; none where the behaviour is undefined -/
def handle (s : Signal) : Option Written := do
  let content ← s.content
  let first_string := readLine s.garbage content
  let size ← first_string.1.findIdx? (· = 10)
  return ⟨if content = [] then 0 else (fgets 4095 content).1.length+1,size,
    (first_string.1.set size 10).take (size+1)⟩

/-- `main`, up to what it does for each handled signal -/
def main : List Signal → Option (List Written)
  | [] => some []
  | s :: signals =>
    if s.number = sigrtmin then some []
    else if sigrtmin < s.number ∧ s.number ≤ sigrtmax then do
      let w ← handle s
      let rest ← main signals
      return w :: rest
    else main signals

/-- The signals before the one that ends the program, without those that are ignored -/
def handled (signals : List Signal) : List Signal :=
  (signals.takeWhile fun s => s.number ≠ sigrtmin).filter fun s =>
    sigrtmin < s.number ∧ s.number ≤ sigrtmax

/-- The scan stays within the bytes that were stored, and the first line is written with its end. -/
structure Correct (s : Signal) (w : Written) : Prop where
  within : w.size < w.stored
  line : ∀ content ∈ s.content, w.bytes = content.takeWhile (· ≠ 10) ++ [10]

theorem handled_exit {s : Signal} (h : s.number = sigrtmin) (signals : List Signal) :
    handled (s :: signals) = [] := by
  simp [handled,h]

theorem handled_cons {s : Signal} (h : sigrtmin < s.number ∧ s.number ≤ sigrtmax)
    (signals : List Signal) : handled (s :: signals) = s :: handled signals := by
  simp [handled,h,Nat.ne_of_gt h.1]

theorem handled_ignored {s : Signal} (hne : s.number ≠ sigrtmin)
    (h : ¬(sigrtmin < s.number ∧ s.number ≤ sigrtmax)) (signals : List Signal) :
    handled (s :: signals) = handled signals := by
  rw [handled,List.takeWhile_cons_of_pos (by simpa using hne),
    List.filter_cons_of_neg (by simpa using h),handled]

theorem main_eq (signals : List Signal) : main signals = (handled signals).mapM handle := by
  induction signals with
  | nil => rfl
  | cons s signals ih =>
    rw [main]
    by_cases hexit : s.number = sigrtmin
    · rw [if_pos hexit,handled_exit hexit]
      rfl
    · rw [if_neg hexit]
      by_cases h : sigrtmin < s.number ∧ s.number ≤ sigrtmax
      · rw [if_pos h,handled_cons h,List.mapM_cons,ih]
      · rw [if_neg h,handled_ignored hexit h,ih]

theorem findIdx_line {line : List UInt8} (h : 10 ∉ line) (rest : List UInt8) :
    (line ++ rest).findIdx? (· = 10) = (rest.findIdx? (· = 10)).map (· + line.length) := by
  have hnone : line.findIdx? (· = 10) = none := List.findIdx?_eq_none_iff.mpr fun c hc => by
    simpa using ne_of_mem_of_not_mem hc h
  rw [List.findIdx?_append,hnone,Option.none_or]

theorem handle_of_line {s : Signal} {line rest : List UInt8}
    (hcontent : s.content = some (line ++ 10 :: rest)) (hline : 10 ∉ line)
    (hlen : line.length < 4095) : handle s = some ⟨line.length+2,line.length,line ++ [10]⟩ := by
  have hne : line ++ 10 :: rest ≠ [] := by simp
  have hget : (fgets 4095 (line ++ 10 :: rest)).1 = line ++ [10] := by rw [fgets_line hline hlen rest]
  have hfirst := readLine_val s.garbage hne
  rw [hget,List.append_assoc] at hfirst
  have hscan := findIdx_line hline ([10] ++ 0 :: s.garbage.1.drop ((line ++ [10]).length+1))
  rw [← hfirst,List.cons_append,List.findIdx?_cons] at hscan
  have hkeep : (readLine s.garbage (line ++ 10 :: rest)).1.set line.length 10 =
      (readLine s.garbage (line ++ 10 :: rest)).1 := by
    rw [hfirst]
    simp
  have hwritten : (readLine s.garbage (line ++ 10 :: rest)).1.take (line.length+1) = line ++ [10] := by
    rw [hfirst,← List.append_assoc,List.take_left' (by simp)]
  simp [handle,hcontent,hget,hscan,hkeep,hwritten]

/-- Without one the scan leaves what was read. -/
theorem stored_le_size {s : Signal} {content : List UInt8} (hcontent : s.content = some content)
    (h : 10 ∉ content.take 4095) {w : Written} (hw : handle s = some w) : w.stored ≤ w.size := by
  simp only [handle,hcontent,Option.bind_eq_bind,Option.bind_some,Option.bind_eq_some_iff,
    Option.pure_def,Option.some.injEq] at hw
  obtain ⟨size,hsize,rfl⟩ := hw
  change (if content = [] then 0 else (fgets 4095 content).1.length+1) ≤ size
  by_cases hne : content = []
  · rw [if_pos hne]
    exact Nat.zero_le _
  · rw [if_neg hne]
    have hline : 10 ∉ (fgets 4095 content).1 := fgets_of_notMem h ▸ h
    rw [readLine_val _ hne,findIdx_line hline,List.findIdx?_cons] at hsize
    obtain ⟨i,hi,rfl⟩ := Option.map_eq_some_iff.mp hsize
    obtain ⟨j,-,rfl⟩ := Option.map_eq_some_iff.mp hi
    omega

theorem handle_correct_iff {s : Signal} {content : List UInt8} (hcontent : s.content = some content) :
    (∃ w, handle s = some w ∧ Correct s w) ↔ 10 ∈ content.take 4095 := by
  constructor
  · rintro ⟨w,hw,hcorrect⟩
    by_contra h
    exact Nat.not_lt.mpr (stored_le_size hcontent h hw) hcorrect.within
  · intro h
    obtain ⟨line,rest,htake,hline⟩ := List.eq_append_cons_of_mem h
    have hlen := congrArg List.length htake
    rw [List.length_take,List.length_append,List.length_cons] at hlen
    have hwhole : content = line ++ 10 :: (rest ++ content.drop 4095) := by
      rw [← List.cons_append,← List.append_assoc,← htake,List.take_append_drop]
    have hfirst : content.takeWhile (· ≠ 10) = line := by
      rw [hwhole]
      exact takeWhile_ne_append hline _
    rw [hwhole] at hcontent
    refine ⟨_,handle_of_line hcontent hline (by omega),by simp,fun c hc => ?_⟩
    rw [Option.mem_def,hcontent] at hc
    rw [← Option.some.inj hc,← hwhole,hfirst]

theorem mapM_forall₂_iff {α β : Type} {f : α → Option β} {R : α → β → Prop} {l : List α} :
    (∃ log, l.mapM f = some log ∧ List.Forall₂ R l log) ↔ ∀ a ∈ l, ∃ b, f a = some b ∧ R a b := by
  induction l with
  | nil => simp
  | cons a l ih =>
    rw [List.forall_mem_cons,← ih,List.mapM_cons]
    constructor
    · rintro ⟨log,hlog,hall⟩
      simp only [Option.bind_eq_bind,Option.bind_eq_some_iff,Option.pure_def,Option.some.injEq] at hlog
      obtain ⟨b,hb,rest,hrest,rfl⟩ := hlog
      obtain ⟨hhead,htail⟩ := List.forall₂_cons.mp hall
      exact ⟨⟨b,hb,hhead⟩,rest,hrest,htail⟩
    · rintro ⟨⟨b,hb,hhead⟩,rest,hrest,htail⟩
      refine ⟨b :: rest,?_,List.forall₂_cons.mpr ⟨hhead,htail⟩⟩
      rw [hb,hrest]
      rfl

/-- A run is correct exactly if all of its files have a newline among their first 4095 bytes. -/
theorem main_correct_iff (signals : List Signal) :
    (∃ log, main signals = some log ∧ List.Forall₂ Correct (handled signals) log) ↔
    ∀ s ∈ handled signals, ∃ content, s.content = some content ∧ 10 ∈ content.take 4095 := by
  rw [main_eq,mapM_forall₂_iff]
  refine forall₂_congr fun s _ => ?_
  rcases hcontent : s.content with _ | content
  · have hnone : handle s = none := by simp [handle,hcontent]
    simp [hnone]
  · rw [handle_correct_iff hcontent]
    simp

def unended : Signal where
  number := 35
  content := some (text "a")
  garbage := ⟨text "xy\n" ++ List.replicate 4093 0,by rw [List.length_append,List.length_replicate]; rfl⟩

theorem unended_not_correct : handled [unended] = [unended] ∧
    main [unended] = some [⟨2,2,text "a" ++ [0,10]⟩] ∧
    ¬Correct unended ⟨2,2,text "a" ++ [0,10]⟩ := by
  refine ⟨rfl,by decide +kernel,fun h => ?_⟩
  exact Nat.lt_irrefl 2 h.within

end SignalReader
end SomeCode
