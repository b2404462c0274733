import SomeCode.CString
import SomeCode.Transition

/-! Calls through shared memory: the client of `inf21-1-tester.c` puts a function name
and a value into the shared record, the server of `inf21-1.c` puts back the result, and
two semaphores pass the record between them. An empty name stops the server. -/
namespace SomeCode
namespace SharedCall

open Transition

def nameSize : ℕ := 20

/-- The functions that `dlsym` finds in the library, by name. -/
abbrev Library (V : Type*) := List UInt8 → Option (V → V)

/-- A request that the library can serve and whose name fits in the record. -/
structure Request {V : Type*} (lib : Library V) where
  name : List UInt8
  value : V
  nonempty : name ≠ []
  short : name.length < nameSize
  noZero : 0 ∉ name
  defined : (lib name).isSome

/-- What the client does next; `name` and `clear` are before the byte they write. -/
inductive ClientPc
  | scan
  | name (k : ℕ)
  | value
  | post
  | wait
  | read
  | clear (k : ℕ)
  | postEnd
  | done
  deriving DecidableEq

/-- What the server does next; `call` is with the symbol that `dlsym` has found. -/
inductive ServerPc
  | wait
  | strlen
  | dlsym
  | call (func : List UInt8)
  | post
  | done
  deriving DecidableEq

/-- The shared record and the two processes: `rest` is the input of the client from its
current request on, `received` the results it has read, and `evaluated` the calls that
the server has made. -/
structure State {V : Type*} (lib : Library V) where
  requestReady : ℕ
  responseReady : ℕ
  funcName : ℕ → UInt8
  value : V
  result : V
  client : ClientPc
  rest : List (Request lib)
  received : List V
  server : ServerPc
  evaluated : List (List UInt8 × V)

variable {V : Type*} {lib : Library V}

/-- One step of the loop in the tester; `scanf` writes the name byte by byte and a zero
after it. -/
def clientStep (s : State lib) : Option (State lib) :=
  match s.client, s.rest with
  | .scan, [] => some { s with client := .clear 0 }
  | .scan, _ :: _ => some { s with client := .name 0 }
  | .name k, r :: _ =>
    some { s with
      funcName := Function.update s.funcName k (r.name.getD k 0)
      client := if k < r.name.length then .name (k+1) else .value }
  | .value, r :: _ => some { s with value := r.value, client := .post }
  | .post, _ :: _ => some { s with requestReady := s.requestReady+1, client := .wait }
  | .wait, _ :: _ =>
    if 0 < s.responseReady then
      some { s with responseReady := s.responseReady-1, client := .read } else none
  | .read, _ :: rest =>
    some { s with received := s.received ++ [s.result], rest := rest, client := .scan }
  | .clear k, _ =>
    if k < nameSize then
      some { s with funcName := Function.update s.funcName k 0, client := .clear (k+1) }
    else some { s with client := .postEnd }
  | .postEnd, _ => some { s with requestReady := s.requestReady+1, client := .done }
  | _, _ => none

/-- One step of the loop in the server. A name that the library does not define stops it
with a fault, which is no step. -/
def serverStep (s : State lib) : Option (State lib) :=
  match s.server with
  | .wait =>
    if 0 < s.requestReady then
      some { s with requestReady := s.requestReady-1, server := .strlen } else none
  | .strlen =>
    if (CString.read s.funcName nameSize 0).length = 0 then some { s with server := .done }
    else some { s with server := .dlsym }
  | .dlsym => some { s with server := .call (CString.read s.funcName nameSize 0) }
  | .call func =>
    match lib func with
    | none => none
    | some f => some { s with
        result := f s.value
        evaluated := s.evaluated ++ [(func,s.value)]
        server := .post }
  | .post => some { s with responseReady := s.responseReady+1, server := .wait }
  | .done => none

inductive Action
  | client
  | server
  deriving DecidableEq

def step : Action → State lib → Option (State lib)
  | .client, s => clientStep s
  | .server, s => serverStep s

/-- The server has initialised the semaphores; the record holds anything else. -/
def init (requests : List (Request lib)) (funcName : ℕ → UInt8) (value result : V) : State lib :=
  ⟨0,0,funcName,value,result,.scan,requests,[],.wait,[]⟩

def system (requests : List (Request lib)) (funcName : ℕ → UInt8) (value result : V) :
    System (State lib) Action :=
  ⟨init requests funcName value result,step⟩

def ClientPc.writes : ClientPc → Bool
  | .name _ | .value | .clear _ => true
  | _ => false

def ServerPc.reads : ServerPc → Bool
  | .strlen | .dlsym | .call _ => true
  | _ => false

def Finished (s : State lib) : Prop := s.client = .done ∧ s.server = .done

def Request.answer (r : Request lib) : V := (lib r.name).get r.defined r.value

def Request.call (r : Request lib) : List UInt8 × V := (r.name,r.value)

structure Resting (s : State lib) : Prop where
  server : s.server = .wait
  request : s.requestReady = 0
  response : s.responseReady = 0

/-- Where the request `r` is while the client waits for its answer. -/
inductive Pending (r : Request lib) (served : List (Request lib)) (s : State lib) : Prop
  | sent (server : s.server = .wait) (request : s.requestReady = 1) (response : s.responseReady = 0)
      (evaluated : s.evaluated = served.map Request.call)
  | taken (server : s.server = .strlen ∨ s.server = .dlsym ∨ s.server = .call r.name)
      (request : s.requestReady = 0) (response : s.responseReady = 0)
      (evaluated : s.evaluated = served.map Request.call)
  | evaluated (server : s.server = .post) (request : s.requestReady = 0)
      (response : s.responseReady = 0) (result : s.result = r.answer)
      (evaluated : s.evaluated = (served ++ [r]).map Request.call)
  | answered (server : s.server = .wait) (request : s.requestReady = 0)
      (response : s.responseReady = 1) (result : s.result = r.answer)
      (evaluated : s.evaluated = (served ++ [r]).map Request.call)

inductive Stopping (s : State lib) : Prop
  | sent (server : s.server = .wait) (request : s.requestReady = 1)
  | taken (server : s.server = .strlen) (request : s.requestReady = 0)
  | left (server : s.server = .done)

/-- What holds at each point of the client, with the requests answered before. -/
def ClientAt (served : List (Request lib)) (s : State lib) : ClientPc → Prop
  | .scan => Resting s ∧ s.evaluated = served.map Request.call
  | .name k => Resting s ∧ s.evaluated = served.map Request.call ∧ ∃ r rest, s.rest = r :: rest ∧
      k ≤ r.name.length ∧ ∀ j, j < k → s.funcName j = r.name.getD j 0
  | .value => Resting s ∧ s.evaluated = served.map Request.call ∧ ∃ r rest, s.rest = r :: rest ∧
      CString.Holds s.funcName 0 r.name
  | .post => Resting s ∧ s.evaluated = served.map Request.call ∧ ∃ r rest, s.rest = r :: rest ∧
      CString.Holds s.funcName 0 r.name ∧ s.value = r.value
  | .wait => ∃ r rest, s.rest = r :: rest ∧ CString.Holds s.funcName 0 r.name ∧
      s.value = r.value ∧ Pending r served s
  | .read => Resting s ∧ ∃ r rest, s.rest = r :: rest ∧ s.result = r.answer ∧
      s.evaluated = (served ++ [r]).map Request.call
  | .clear k => Resting s ∧ s.evaluated = served.map Request.call ∧ s.rest = [] ∧ k ≤ nameSize ∧
      (0 < k → s.funcName 0 = 0)
  | .postEnd => Resting s ∧ s.evaluated = served.map Request.call ∧ s.rest = [] ∧ s.funcName 0 = 0
  | .done => s.evaluated = served.map Request.call ∧ s.rest = [] ∧ s.funcName 0 = 0 ∧ Stopping s

structure Inv (requests served : List (Request lib)) (s : State lib) : Prop where
  requests : requests = served ++ s.rest
  received : s.received = served.map Request.answer
  client : ClientAt served s s.client

section Steps

variable {requests served : List (Request lib)} {s s' : State lib} {r : Request lib}

theorem Request.read_name (r : Request lib) (h : CString.Holds s.funcName 0 r.name) :
    CString.read s.funcName nameSize 0 = r.name := h.read_eq r.noZero r.short

theorem Request.lib_name (r : Request lib) :
    lib r.name = some ((lib r.name).get r.defined) := (Option.some_get _).symm

theorem name_update {mem : ℕ → UInt8} {l : List UInt8} {k : ℕ}
    (h : ∀ j, j < k → mem j = l.getD j 0) :
    ∀ j, j < k+1 → Function.update mem k (l.getD k 0) j = l.getD j 0 := by
  intro j hj
  obtain rfl | hne := eq_or_ne j k
  · exact Function.update_self ..
  · rw [Function.update_of_ne hne]
    exact h j (by omega)

theorem Resting.no_server_step (h : Resting s) : serverStep s = none := by
  simp [serverStep,h.server,h.request]

theorem Inv.client_step (hi : Inv requests served s) (h : clientStep s = some s') :
    ∃ served', Inv requests served' s' := by
  have hreq := hi.requests
  have hrec := hi.received
  have hc := hi.client
  cases hpc : s.client <;> simp only [hpc,ClientAt] at hc
  case scan =>
    obtain ⟨hrest,hev⟩ := hc
    cases hl : s.rest <;> simp only [clientStep,hpc,hl] at h hreq
    case nil =>
      cases h
      exact ⟨served,hreq,hrec,⟨hrest.1,hrest.2,hrest.3⟩,hev,rfl,Nat.zero_le _,by simp⟩
    case cons r rest =>
      cases h
      exact ⟨served,hreq,hrec,⟨hrest.1,hrest.2,hrest.3⟩,hev,r,rest,rfl,Nat.zero_le _,by simp⟩
  case name k =>
    obtain ⟨hrest,hev,r,rest,hl,hk,hmem⟩ := hc
    simp only [clientStep,hpc,hl] at h hreq
    cases h
    have hnew := name_update hmem
    by_cases hlt : k < r.name.length
    · refine ⟨served,hreq,hrec,?_⟩
      simp only [hlt,if_true]
      exact ⟨⟨hrest.1,hrest.2,hrest.3⟩,hev,r,rest,rfl,hlt,hnew⟩
    · refine ⟨served,hreq,hrec,?_⟩
      simp only [hlt,if_false]
      refine ⟨⟨hrest.1,hrest.2,hrest.3⟩,hev,r,rest,rfl,fun j hj => ?_⟩
      rw [Nat.zero_add]
      exact hnew j (by omega)
  case value =>
    obtain ⟨hrest,hev,r,rest,hl,hmem⟩ := hc
    simp only [clientStep,hpc,hl] at h hreq
    cases h
    exact ⟨served,hreq,hrec,⟨hrest.1,hrest.2,hrest.3⟩,hev,r,rest,rfl,hmem,rfl⟩
  case post =>
    obtain ⟨hrest,hev,r,rest,hl,hmem,hv⟩ := hc
    simp only [clientStep,hpc,hl] at h hreq
    cases h
    exact ⟨served,hreq,hrec,r,rest,rfl,hmem,hv,.sent hrest.1 (by simp [hrest.2]) hrest.3 hev⟩
  case wait =>
    obtain ⟨r,rest,hl,hmem,hv,hp⟩ := hc
    simp only [clientStep,hpc,hl] at h hreq
    split at h
    · rename_i hpos
      cases h
      cases hp with
      | sent server request response evaluated => omega
      | taken server request response evaluated => omega
      | evaluated server request response result evaluated => omega
      | answered server request response result evaluated =>
        exact ⟨served,hreq,hrec,⟨server,request,by simp [response]⟩,r,rest,rfl,result,evaluated⟩
    · cases h
  case read =>
    obtain ⟨hrest,r,rest,hl,hres,hev⟩ := hc
    simp only [clientStep,hpc,hl] at h hreq
    cases h
    refine ⟨served ++ [r],?_,?_,⟨hrest.1,hrest.2,hrest.3⟩,hev⟩
    · rw [hreq,List.append_assoc]
      rfl
    · simp [hrec,hres]
  case clear k =>
    obtain ⟨hrest,hev,hl,hk,hzero⟩ := hc
    simp only [clientStep,hpc] at h
    split at h
    · rename_i hlt
      cases h
      have hnew : Function.update s.funcName k 0 0 = 0 := by
        obtain rfl | hne := eq_or_ne 0 k
        · exact Function.update_self ..
        · rw [Function.update_of_ne hne]
          exact hzero (Nat.pos_of_ne_zero hne.symm)
      exact ⟨served,hreq,hrec,⟨hrest.1,hrest.2,hrest.3⟩,hev,hl,hlt,fun _ => hnew⟩
    · rename_i hge
      cases h
      have hpos : 0 < nameSize := by decide
      exact ⟨served,hreq,hrec,⟨hrest.1,hrest.2,hrest.3⟩,hev,hl,hzero (by omega)⟩
  case postEnd =>
    obtain ⟨hrest,hev,hl,hzero⟩ := hc
    simp only [clientStep,hpc] at h
    cases h
    exact ⟨served,hreq,hrec,hev,hl,hzero,.sent hrest.1 (by simp [hrest.2])⟩
  case done => simp [clientStep,hpc] at h

theorem Pending.server_step (hp : Pending r served s) (hmem : CString.Holds s.funcName 0 r.name)
    (hv : s.value = r.value) (h : serverStep s = some s') :
    s'.funcName = s.funcName ∧ s'.value = s.value ∧ s'.client = s.client ∧ s'.rest = s.rest ∧
      s'.received = s.received ∧ Pending r served s' := by
  cases hp with
  | sent server request response evaluated =>
    simp only [serverStep,server,request,Nat.zero_lt_one,if_true] at h
    cases h
    exact ⟨rfl,rfl,rfl,rfl,rfl,.taken (.inl rfl) rfl response evaluated⟩
  | taken server request response evaluated =>
    obtain server | server | server := server
    · simp only [serverStep,server,r.read_name hmem,List.length_eq_zero_iff,r.nonempty,if_false] at h
      cases h
      exact ⟨rfl,rfl,rfl,rfl,rfl,.taken (.inr (.inl rfl)) request response evaluated⟩
    · simp only [serverStep,server,r.read_name hmem] at h
      cases h
      exact ⟨rfl,rfl,rfl,rfl,rfl,.taken (.inr (.inr rfl)) request response evaluated⟩
    · simp only [serverStep,server] at h
      rw [r.lib_name] at h
      cases h
      refine ⟨rfl,rfl,rfl,rfl,rfl,.evaluated rfl request response ?_ ?_⟩
      · simp [Request.answer,hv]
      · simp [evaluated,hv,Request.call]
  | evaluated server request response result evaluated =>
    simp only [serverStep,server] at h
    cases h
    exact ⟨rfl,rfl,rfl,rfl,rfl,.answered rfl request (by simp [response]) result evaluated⟩
  | answered server request response result evaluated =>
    simp [serverStep,server,request] at h

theorem Stopping.server_step (hs : Stopping s) (hzero : s.funcName 0 = 0)
    (h : serverStep s = some s') : Stopping s' ∧ s'.funcName = s.funcName ∧
      s'.evaluated = s.evaluated ∧ s'.client = s.client ∧ s'.rest = s.rest ∧
        s'.received = s.received := by
  cases hs with
  | sent server request =>
    simp only [serverStep,server,request,Nat.zero_lt_one,if_true] at h
    cases h
    exact ⟨.taken rfl rfl,rfl,rfl,rfl,rfl,rfl⟩
  | taken server request =>
    simp only [serverStep,server,nameSize,CString.read,hzero,if_true,List.length_nil] at h
    cases h
    exact ⟨.left rfl,rfl,rfl,rfl,rfl,rfl⟩
  | left server => simp [serverStep,server] at h

theorem Inv.server_step (hi : Inv requests served s) (h : serverStep s = some s') :
    Inv requests served s' := by
  have hreq := hi.requests
  have hrec := hi.received
  have hc := hi.client
  cases hpc : s.client <;> simp only [hpc,ClientAt] at hc
  case wait =>
    obtain ⟨r,rest,hl,hmem,hv,hp⟩ := hc
    obtain ⟨hf,hval,hcl,hr,hre,hp'⟩ := hp.server_step hmem hv h
    refine ⟨by rw [hr,hreq],by rw [hre,hrec],?_⟩
    rw [hcl,hpc]
    exact ⟨r,rest,hr.trans hl,hf ▸ hmem,hval.trans hv,hp'⟩
  case done =>
    obtain ⟨hev,hl,hzero,hs⟩ := hc
    obtain ⟨hs',hf,hev',hcl,hr,hre⟩ := hs.server_step hzero h
    refine ⟨by rw [hr,hreq],by rw [hre,hrec],?_⟩
    rw [hcl,hpc]
    exact ⟨hev'.trans hev,hr.trans hl,hf ▸ hzero,hs'⟩
  all_goals
    rw [hc.1.no_server_step] at h
    cases h

theorem inv_invariant (requests : List (Request lib)) (funcName : ℕ → UInt8) (value result : V) :
    (system requests funcName value result).Invariant fun s => ∃ served, Inv requests served s where
  step {a s s'} hs h := by
    obtain ⟨served,hi⟩ := hs
    cases a with
    | client => exact hi.client_step h
    | server => exact ⟨served,hi.server_step h⟩
  start := ⟨[],rfl,rfl,⟨rfl,rfl,rfl⟩,rfl⟩

end Steps

section Progress

variable {requests served : List (Request lib)} {s s' : State lib} {r : Request lib} {a : Action}

theorem Pending.progress (hp : Pending r served s) (hc : s.client = .wait) {rest : List (Request lib)}
    (hl : s.rest = r :: rest) : ∃ a, step a s ≠ none := by
  cases hp with
  | sent server request response evaluated =>
    exact ⟨.server,by simp [step,serverStep,server,request]⟩
  | taken server request response evaluated =>
    refine ⟨.server,?_⟩
    obtain server | server | server := server
    · simp only [step,serverStep,server]
      split_ifs <;> simp
    · simp [step,serverStep,server]
    · simp only [step,serverStep,server]
      rw [r.lib_name]
      simp
  | evaluated server request response result evaluated =>
    exact ⟨.server,by simp [step,serverStep,server]⟩
  | answered server request response result evaluated =>
    exact ⟨.client,by simp [step,clientStep,hc,hl,response]⟩

theorem Inv.progress (hi : Inv requests served s) : Finished s ∨ ∃ a, step a s ≠ none := by
  have hc := hi.client
  cases hpc : s.client <;> simp only [hpc,ClientAt] at hc
  case scan =>
    refine .inr ⟨.client,?_⟩
    cases hl : s.rest <;> simp [step,clientStep,hpc,hl]
  case name k =>
    obtain ⟨-,-,r,rest,hl,-⟩ := hc
    exact .inr ⟨.client,by simp [step,clientStep,hpc,hl]⟩
  case value | post =>
    obtain ⟨-,-,r,rest,hl,-⟩ := hc
    exact .inr ⟨.client,by simp [step,clientStep,hpc,hl]⟩
  case wait =>
    obtain ⟨r,rest,hl,-,-,hp⟩ := hc
    exact .inr (hp.progress hpc hl)
  case read =>
    obtain ⟨-,r,rest,hl,-⟩ := hc
    exact .inr ⟨.client,by simp [step,clientStep,hpc,hl]⟩
  case clear k =>
    refine .inr ⟨.client,?_⟩
    simp only [step,clientStep,hpc]
    split_ifs <;> simp
  case postEnd => exact .inr ⟨.client,by simp [step,clientStep,hpc]⟩
  case done =>
    obtain ⟨-,-,-,hs⟩ := hc
    cases hs with
    | sent server request => exact .inr ⟨.server,by simp [step,serverStep,server,request]⟩
    | taken server request =>
      refine .inr ⟨.server,?_⟩
      simp only [step,serverStep,server]
      split_ifs <;> simp
    | left server => exact .inl ⟨hpc,server⟩

def ClientPc.weight : ClientPc → ℕ
  | .scan => 32
  | .name k => 11 + (nameSize-k)
  | .value => 10
  | .post => 9
  | .wait => 2
  | .read => 2
  | .clear k => 8 + (nameSize-k)
  | .postEnd => 7
  | .done => 0

def ServerPc.weight : ServerPc → ℕ
  | .wait => 0
  | .strlen => 5
  | .dlsym => 4
  | .call _ => 3
  | .post => 2
  | .done => 0

/-- A bound on the steps to come; a token stands for those of the party that takes it. -/
def measure (s : State lib) : ℕ :=
  31*s.rest.length + s.client.weight + s.server.weight + 6*s.requestReady + s.responseReady

theorem client_weight (h : clientStep s = some s') : measure s' < measure s := by
  have hsize : nameSize = 20 := rfl
  cases hpc : s.client <;> cases hl : s.rest <;> simp only [clientStep,hpc,hl] at h <;> try cases h
  case name.cons k r rest =>
    have hshort := r.short
    simp only [measure,hpc,hl]
    split_ifs <;> simp only [ClientPc.weight] <;> omega
  case wait.cons =>
    split at h <;> cases h
    simp only [measure,hpc,hl,ClientPc.weight]
    omega
  case clear.nil | clear.cons =>
    split at h <;> cases h <;> simp only [measure,hpc,hl,ClientPc.weight] <;> omega
  all_goals
    simp only [measure,hpc,hl,ClientPc.weight,List.length_cons]
    omega

theorem server_weight (h : serverStep s = some s') : measure s' < measure s := by
  cases hpc : s.server <;> simp only [serverStep,hpc] at h
  case wait =>
    split at h <;> cases h
    simp only [measure,hpc,ServerPc.weight]
    omega
  case done => cases h
  all_goals
    try split at h
    all_goals cases h
    all_goals
      simp only [measure,hpc,ServerPc.weight]
      omega

theorem measure_step (h : step a s = some s') : measure s' < measure s := by
  cases a with
  | client => exact client_weight h
  | server => exact server_weight h

theorem Inv.evaluated_isPrefix (hi : Inv requests served s) :
    s.evaluated <+: requests.map Request.call := by
  have hserved : served.map Request.call <+: requests.map Request.call := by
    rw [hi.requests]
    exact (List.prefix_append _ _).map _
  have hnext : ∀ r rest, s.rest = r :: rest →
      (served ++ [r]).map Request.call <+: requests.map Request.call := fun r rest hl => by
    rw [hi.requests,hl]
    exact List.IsPrefix.map _ ⟨rest,by simp⟩
  have hc := hi.client
  cases hpc : s.client <;> simp only [hpc,ClientAt] at hc
  case wait =>
    obtain ⟨r,rest,hl,-,-,hp⟩ := hc
    cases hp with
    | sent _ _ _ evaluated | taken _ _ _ evaluated => exact evaluated ▸ hserved
    | evaluated _ _ _ _ evaluated | answered _ _ _ _ evaluated => exact evaluated ▸ hnext r rest hl
  case read =>
    obtain ⟨-,r,rest,hl,-,hev⟩ := hc
    exact hev ▸ hnext r rest hl
  case done => exact hc.1 ▸ hserved
  case scan => exact hc.2 ▸ hserved
  all_goals exact hc.2.1 ▸ hserved

theorem Inv.exclusive (hi : Inv requests served s) (hw : s.client.writes) :
    s.server.reads = false := by
  have hc := hi.client
  cases hpc : s.client <;> simp only [hpc,ClientAt,ClientPc.writes,reduceCtorEq] at hc hw
  all_goals simp [hc.1.server,ServerPc.reads]

theorem Inv.served_of_left (hi : Inv requests served s) (hd : s.server = .done) :
    s.client = .done ∧ s.rest = [] := by
  have hc := hi.client
  cases hpc : s.client <;> simp only [hpc,ClientAt] at hc
  case wait =>
    obtain ⟨r,rest,-,-,-,hp⟩ := hc
    cases hp <;> simp_all
  case done => exact ⟨rfl,hc.2.1⟩
  all_goals simp [hc.1.server] at hd

end Progress

/-- The protocol on any requests, over all interleavings and whatever the record holds at
the start. -/
structure Serves (requests : List (Request lib)) (funcName : ℕ → UInt8) (value result : V) :
    Prop where
  received : ∀ s, (system requests funcName value result).Reachable s →
    s.received <+: requests.map Request.answer
  evaluated : ∀ s, (system requests funcName value result).Reachable s →
    s.evaluated <+: requests.map Request.call
  exclusive : ∀ s, (system requests funcName value result).Reachable s → s.client.writes →
    s.server.reads = false
  left : ∀ s, (system requests funcName value result).Reachable s → s.server = .done →
    s.client = .done ∧ s.rest = []
  finished : ∀ s, (system requests funcName value result).Reachable s → s.client = .done →
    s.received = requests.map Request.answer ∧ s.evaluated = requests.map Request.call
  progress : ∀ s, (system requests funcName value result).Reachable s →
    Finished s ∨ ∃ a, step a s ≠ none
  bounded : ∃ bound, ∀ as s, (system requests funcName value result).run as
    (init requests funcName value result) = some s → as.length ≤ bound

theorem serves_all (requests : List (Request lib)) (funcName : ℕ → UInt8) (value result : V) :
    Serves requests funcName value result := by
  have hinv := inv_invariant requests funcName value result
  refine ⟨?_,?_,?_,?_,?_,?_,hinv.bounded measure fun _ h => measure_step h⟩
  · intro s hr
    obtain ⟨served,hi⟩ := hinv.reachable hr
    rw [hi.received,hi.requests,List.map_append]
    exact List.prefix_append _ _
  · intro s hr
    obtain ⟨served,hi⟩ := hinv.reachable hr
    exact hi.evaluated_isPrefix
  · intro s hr hw
    obtain ⟨served,hi⟩ := hinv.reachable hr
    exact hi.exclusive hw
  · intro s hr hd
    obtain ⟨served,hi⟩ := hinv.reachable hr
    exact hi.served_of_left hd
  · intro s hr hd
    obtain ⟨served,hi⟩ := hinv.reachable hr
    have hc := hi.client
    simp only [hd,ClientAt] at hc
    have hall : requests = served := by rw [hi.requests,hc.2.1,List.append_nil]
    exact ⟨hall ▸ hi.received,hall ▸ hc.1⟩
  · intro s hr
    obtain ⟨served,hi⟩ := hinv.reachable hr
    exact hi.progress

def sampleLibrary : Library ℤ := fun name =>
  if name = [110,101,103] then some fun x => -x
  else if name = [100,98,108] then some fun x => x+x
  else none

def sampleRequests : List (Request sampleLibrary) :=
  [⟨[110,101,103],5,by decide,by decide,by decide,by decide⟩,
    ⟨[100,98,108],7,by decide,by decide,by decide,by decide⟩]

theorem serves_all_two : ∃ s, (system sampleRequests (fun _ => 1) 0 0).Reachable s ∧ Finished s ∧
    s.received = [-5,14] ∧ s.evaluated = [([110,101,103],5),([100,98,108],7)] := by
  have hserves := serves_all sampleRequests (fun _ => 1) 0 0
  obtain ⟨bound,hbound⟩ := hserves.bounded
  obtain ⟨as,s,hrun,hstuck⟩ := System.exists_stuck_of_bounded hbound .start
  have hr : (system sampleRequests (fun _ => 1) 0 0).Reachable s := ⟨as,hrun⟩
  have hfinished : Finished s :=
    (hserves.progress s hr).resolve_right fun ⟨a,ha⟩ => ha (hstuck a)
  obtain ⟨hreceived,hevaluated⟩ := hserves.finished s hr hfinished.1
  exact ⟨s,hr,hfinished,hreceived.trans rfl,hevaluated.trans rfl⟩

end SharedCall
end SomeCode
