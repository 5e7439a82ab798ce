import TAlib.Tcp.Established

/-!
send from another thread. The functor that is queued for the loop holds a pointer
into the caller's storage and a length, and send(Buffer*) has marked that storage
free before the functor runs. The caller's buffers and strings are objects in a
heap, and each knows the allocation that its characters are in; whether an
allocation moves when it grows is the choice of the allocator.
-/

namespace TAlib

open Foundation

inductive Argument where
  | buffer (b : Buffer)
  | text (s : Bytes)
  deriving DecidableEq

namespace Argument

/-- What the argument of send holds. -/
def content : Argument → Bytes
  | buffer b => b.readable
  | text s => s

def memory : Argument → Bytes
  | buffer b => b.buffer
  | text s => s

/-- peek() or data(), from the start of the allocation. -/
def pointer : Argument → Nat
  | buffer b => b.readerIndex
  | text _ => 0

def size : Argument → Nat
  | buffer b => b.readableBytes
  | text s => s.length

/-- What send does to its argument at the end. -/
def sent : Argument → Argument
  | buffer b => buffer b.retrieveAll
  | text s => text s

end Argument

structure Held where
  object : Argument
  home : Nat
  deriving DecidableEq

/-- A functor that calls sendInLoop. `number` counts the calls of send. -/
structure Queued where
  object : Nat
  home : Nat
  pointer : Nat
  size : Nat
  number : Nat
  deriving DecidableEq

/-- `homes` counts the allocations. What happened is recorded: what the argument
of each send held, and the bytes that each sendInLoop was handed. -/
structure Senders where
  loop : InLoop
  heap : Nat → Option Held
  homes : Nat
  queue : List Queued
  sent : List Bytes
  processed : List (Nat × Bytes)

inductive SendCall where
  | newBuffer (object : Nat)
  | newText (object : Nat) (s : Bytes)
  /-- `result` is what a write in sendInLoop gets, when the loop thread sends. -/
  | send (object : Nat) (inLoop : Bool) (result : WriteResult)
  | append (object : Nat) (data : Bytes) (moves : Bool)
  | retrieve (object len : Nat)
  | assign (object : Nat) (s : Bytes) (moves : Bool)
  | destroy (object : Nat)
  /-- The loop runs the next functor. -/
  | runFunctor (result : WriteResult)
  /-- Anything else that the loop does with the connection. -/
  | loop (call : InLoop.LoopCall)

namespace Senders

def start (loop : InLoop) : Senders := ⟨loop, fun _ => none, 0, [], [], []⟩

def store (s : Senders) (object : Nat) (h : Option Held) : Senders :=
  { s with heap := Function.update s.heap object h }

/-- A new object. -/
def place (s : Senders) (object : Nat) (o : Argument) : Senders :=
  match s.heap object with
  | some _ => s
  | none => { s.store object (some ⟨o, s.homes⟩) with homes := s.homes + 1 }

/-- An object changes, and its characters may move. -/
def change (s : Senders) (object : Nat) (o : Argument) (home : Nat) (moves : Bool) : Senders :=
  if moves then { s.store object (some ⟨o, s.homes⟩) with homes := s.homes + 1 }
  else s.store object (some ⟨o, home⟩)

/-- The bytes that a functor finds; no bytes need no memory. -/
def read (s : Senders) (f : Queued) : Except Fault Bytes :=
  if f.size = 0 then .ok []
  else
    match s.heap f.object with
    | none => .error .dangling
    | some h =>
        if h.home = f.home then .ok (slice h.object.memory f.pointer (f.pointer + f.size))
        else .error .dangling

/-- sendInLoop for the send of this number. -/
def process (s : Senders) (number : Nat) (data : Bytes) (result : WriteResult) :
    Except Fault Senders := do
  let loop ← s.loop.sendInLoop data result
  return { s with loop := loop, processed := s.processed ++ [(number, data)] }

/-- send(Buffer*) and send(const std::string&), which only differ in what they do
to their argument. -/
def send (s : Senders) (object : Nat) (h : Held) (inLoop : Bool) (result : WriteResult) :
    Except Fault Senders :=
  if s.loop.conn.state = .kConnected then do
    let number := s.sent.length
    let pointer := h.object.pointer
    let size := h.object.size
    let s := { s with sent := s.sent ++ [h.object.content] }
    let s ← (if inLoop then s.process number (slice h.object.memory pointer (pointer + size)) result
      else .ok { s with queue := s.queue ++ [⟨object, h.home, pointer, size, number⟩] })
    return s.store object (some { h with object := h.object.sent })
  else .ok s

def exec (s : Senders) : SendCall → Except Fault Senders
  | .newBuffer object => do
      let b ← Buffer.new kInitialSize
      return s.place object (.buffer b)
  | .newText object text => .ok (s.place object (.text text))
  | .send object inLoop result =>
      match s.heap object with
      | some h => s.send object h inLoop result
      | none => .ok s
  | .append object data moves =>
      match s.heap object with
      | some ⟨.buffer b, home⟩ => do
          let b' ← b.append data
          return s.change object (.buffer b') home (moves && b.buffer.length < b'.buffer.length)
      | _ => .ok s
  | .retrieve object len =>
      match s.heap object with
      | some ⟨.buffer b, home⟩ => do
          let b' ← b.retrieve len
          return s.change object (.buffer b') home false
      | _ => .ok s
  | .assign object text moves =>
      match s.heap object with
      | some ⟨.text _, home⟩ => .ok (s.change object (.text text) home moves)
      | _ => .ok s
  | .destroy object => .ok (s.store object none)
  | .runFunctor result =>
      match s.queue with
      | [] => .ok s
      | f :: queue => do
          let data ← s.read f
          process { s with queue := queue } f.number data result
  | .loop call => do
      let loop ← s.loop.loopCall call
      return { s with loop := loop }

/-- sendInLoop was handed what the arguments held, and will be by the functors
that are queued. -/
structure SendsSame (s : Senders) : Prop where
  processed : ∀ n data, (n, data) ∈ s.processed → s.sent[n]? = some data
  queued : ∀ f ∈ s.queue, ∃ data, s.sent[f.number]? = some data ∧ s.read f = .ok data

/-- The caller leaves the bytes alone that a queued functor is going to read: a
string is not changed, nothing is destroyed, and an append finds room, so that it
neither moves bytes nor the allocation, and writes elsewhere. -/
def Spares (s : Senders) : SendCall → Prop
  | .append object data _ => ∀ f ∈ s.queue, f.object = object → f.size ≠ 0 →
      ∀ b home, s.heap object = some ⟨.buffer b, home⟩ → data.length ≤ b.writableBytes ∧
        (f.pointer + f.size ≤ b.writerIndex ∨ b.writerIndex + data.length ≤ f.pointer)
  | .assign object _ _ | .destroy object => ∀ f ∈ s.queue, f.object = object → f.size = 0
  | _ => True

structure Sound (s : Senders) : Prop where
  valid : ∀ object b home, s.heap object = some ⟨.buffer b, home⟩ → b.Valid
  same : s.SendsSame

variable {s : Senders}

@[simp] theorem store_self (s : Senders) (object : Nat) (h : Option Held) :
    (s.store object h).heap object = h := Function.update_self ..

@[simp] theorem store_of_ne (s : Senders) {object object' : Nat} (h : Option Held)
    (hne : object' ≠ object) : (s.store object h).heap object' = s.heap object' :=
  Function.update_of_ne hne ..

/-- What an argument holds is what its pointer and length say. -/
theorem content_eq {o : Argument} (h : ∀ b, o = .buffer b → b.Valid) :
    slice o.memory o.pointer (o.pointer + o.size) = o.content := by
  cases o with
  | buffer b =>
      have hv := h b rfl
      have hend : b.readerIndex + b.readableBytes = b.writerIndex := by
        have hle := hv.reader_le
        rw [hv.readableBytes_eq]
        omega
      simp only [Argument.memory, Argument.pointer, Argument.size, Argument.content, hend]
      rfl
  | text s =>
      simp only [Argument.memory, Argument.pointer, Argument.size, Argument.content, slice,
        List.drop_zero,
        Nat.zero_add, Nat.sub_zero, List.take_length]

/-- A functor finds what it found before when its object keeps its place and the
bytes there. -/
theorem read_congr {s' : Senders} {f : Queued}
    (h : f.size = 0 ∨ ∀ held, s.heap f.object = some held → held.home = f.home →
      ∃ held', s'.heap f.object = some held' ∧ held'.home = f.home ∧
        slice held'.object.memory f.pointer (f.pointer + f.size) =
          slice held.object.memory f.pointer (f.pointer + f.size))
    {data : Bytes} (hread : s.read f = .ok data) : s'.read f = .ok data := by
  rw [read] at hread ⊢
  by_cases hsize : f.size = 0
  · rw [if_pos hsize] at hread ⊢
    exact hread
  · rw [if_neg hsize] at hread ⊢
    cases hheld : s.heap f.object with
    | none =>
        rw [hheld] at hread
        cases hread
    | some held =>
        rw [hheld] at hread
        by_cases hhome : held.home = f.home
        · obtain ⟨held', hheld', hhome', hslice⟩ := h.resolve_left hsize held hheld hhome
          simp only [if_pos hhome] at hread
          simp only [hheld', if_pos hhome', hslice]
          exact hread
        · simp only [if_neg hhome] at hread
          cases hread

/-- A change of the heap under which every queued functor finds its bytes. -/
theorem Sound.of_heap {s' : Senders} (hs : s.Sound)
    (hsent : s'.sent = s.sent) (hprocessed : s'.processed = s.processed)
    (hqueue : s'.queue = s.queue)
    (hvalid : ∀ object b home, s'.heap object = some ⟨.buffer b, home⟩ → b.Valid)
    (hread : ∀ f ∈ s.queue, ∀ data, s.read f = .ok data → s'.read f = .ok data) : s'.Sound := by
  refine ⟨hvalid, ?_, fun f hf => ?_⟩
  · rw [hsent, hprocessed]
    exact hs.same.processed
  · rw [hqueue] at hf
    obtain ⟨data, hdata, hok⟩ := hs.same.queued f hf
    exact ⟨data, hsent ▸ hdata, hread f hf data hok⟩

theorem store_valid (hs : s.Sound) {object : Nat} {h : Option Held}
    (hv : ∀ b home, h = some ⟨.buffer b, home⟩ → b.Valid) (object' : Nat) (b : Buffer) (home : Nat)
    (hheap : (s.store object h).heap object' = some ⟨.buffer b, home⟩) : b.Valid := by
  by_cases heq : object' = object
  · rw [heq, store_self] at hheap
    exact hv b home hheap
  · rw [store_of_ne _ _ heq] at hheap
    exact hs.valid object' b home hheap

/-- An object that is stored again, in its place and with the bytes of every
functor. -/
theorem Sound.stored (hs : s.Sound) {object : Nat} {held : Held}
    (hheld : s.heap object = some held) {o : Argument} (hv : ∀ b, o = .buffer b → b.Valid)
    (hslice : ∀ f ∈ s.queue, f.object = object → f.size ≠ 0 →
      slice o.memory f.pointer (f.pointer + f.size) =
        slice held.object.memory f.pointer (f.pointer + f.size)) :
    (s.store object (some ⟨o, held.home⟩)).Sound := by
  refine hs.of_heap rfl rfl rfl (store_valid hs ?_) fun f hf data hok => read_congr ?_ hok
  · rintro b home heq
    cases heq
    exact hv b rfl
  · by_cases hobject : f.object = object
    · refine (Decidable.em (f.size = 0)).imp_right fun hsize held' hheld' hhome => ?_
      rw [hobject, hheld] at hheld'
      cases hheld'
      refine ⟨⟨o, held.home⟩, ?_, hhome, hslice f hf hobject hsize⟩
      rw [hobject, store_self]
    · refine .inr fun held' hheld' hhome => ⟨held', ?_, hhome, rfl⟩
      rw [store_of_ne _ _ hobject]
      exact hheld'

/-- An object that is no longer where a functor would read. -/
theorem Sound.gone (hs : s.Sound) {object : Nat} {h : Option Held}
    (hv : ∀ b home, h = some ⟨.buffer b, home⟩ → b.Valid)
    (hspares : ∀ f ∈ s.queue, f.object = object → f.size = 0) (homes : Nat) :
    Sound { s.store object h with homes := homes } := by
  refine hs.of_heap rfl rfl rfl (store_valid hs hv) fun f hf data hok => read_congr ?_ hok
  by_cases hobject : f.object = object
  · exact .inl (hspares f hf hobject)
  · refine .inr fun held hheld hhome => ⟨held, ?_, hhome, rfl⟩
    exact (store_of_ne _ _ hobject).trans hheld

/-- A functor of an object that does not exist has no bytes to read. -/
theorem Sound.size_of_absent (hs : s.Sound) {object : Nat} (hnone : s.heap object = none) :
    ∀ f ∈ s.queue, f.object = object → f.size = 0 := by
  intro f hf hobject
  by_contra hsize
  obtain ⟨data, -, hok⟩ := hs.same.queued f hf
  rw [read, if_neg hsize, hobject, hnone] at hok
  cases hok

theorem place_sound (hs : s.Sound) {object : Nat} {o : Argument}
    (hv : ∀ b, o = .buffer b → b.Valid) : (s.place object o).Sound := by
  unfold place
  split
  · exact hs
  · rename_i hnone
    refine hs.gone ?_ (hs.size_of_absent hnone) _
    rintro b home heq
    cases heq
    exact hv b rfl

theorem loop_sound (hs : s.Sound) (loop : InLoop) : Sound { s with loop := loop } :=
  hs.of_heap rfl rfl rfl hs.valid fun _ _ _ hok => hok

/-- A sendInLoop that is handed what the send of its number held. -/
theorem process_sound (hs : s.Sound) {number : Nat} {data : Bytes} {result : WriteResult}
    {t : Senders} (hdata : s.sent[number]? = some data) (h : s.process number data result = .ok t) :
    t.Sound := by
  obtain ⟨loop, -, h⟩ := bind_eq_ok.mp h
  cases h
  refine ⟨hs.valid, fun n d hmem => ?_, hs.same.queued⟩
  cases List.mem_append.mp hmem with
  | inl hold => exact hs.same.processed n d hold
  | inr hnew =>
      cases List.mem_singleton.mp hnew
      exact hdata

/-- One more argument of send is recorded. -/
theorem Sound.records (hs : s.Sound) (content : Bytes) :
    Sound { s with sent := s.sent ++ [content] } := by
  have hkeeps {n : Nat} {data : Bytes} (h : s.sent[n]? = some data) :
      (s.sent ++ [content])[n]? = some data := by
    rw [List.getElem?_append_left (List.getElem?_eq_some_iff.mp h).1]
    exact h
  refine ⟨hs.valid, fun n d hmem => hkeeps (hs.same.processed n d hmem), fun f hf => ?_⟩
  obtain ⟨data, hdata, hok⟩ := hs.same.queued f hf
  exact ⟨data, hkeeps hdata, hok⟩

/-- Only the indices of a sent object change. -/
theorem sent_memory (o : Argument) : o.sent.memory = o.memory := by
  cases o with
  | buffer b => rfl
  | text s => rfl

theorem send_sound (hs : s.Sound) {object : Nat} {held : Held} (hheld : s.heap object = some held)
    {inLoop : Bool} {result : WriteResult} {t : Senders}
    (h : s.send object held inLoop result = .ok t) : t.Sound := by
  have hvalid (b : Buffer) (hb : held.object = .buffer b) : b.Valid :=
    hs.valid object b held.home (by rw [hheld, ← hb])
  have hsentValid (b : Buffer) (hb : held.object.sent = .buffer b) : b.Valid := by
    cases hobject : held.object with
    | buffer b' =>
        rw [hobject] at hb
        cases hb
        exact (Buffer.retrieveAll_valid (hvalid b' hobject)).1
    | text _ =>
        rw [hobject] at hb
        cases hb
  have hnumber : (s.sent ++ [held.object.content])[s.sent.length]? = some held.object.content :=
    List.getElem?_concat_length
  have hcontent := content_eq hvalid
  rw [send] at h
  split at h
  · obtain ⟨m, hm, h⟩ := bind_eq_ok.mp h
    cases h
    have hmid : m.Sound ∧ m.heap object = some held := by
      cases inLoop with
      | true =>
          rw [if_pos rfl] at hm
          rw [hcontent] at hm
          refine ⟨process_sound (hs.records _) hnumber hm, ?_⟩
          obtain ⟨loop, -, hm⟩ := bind_eq_ok.mp hm
          cases hm
          exact hheld
      | false =>
          rw [if_neg Bool.false_ne_true] at hm
          cases hm
          have hrecorded := hs.records held.object.content
          refine ⟨⟨hrecorded.valid, hrecorded.same.processed, fun f hf => ?_⟩, hheld⟩
          cases List.mem_append.mp hf with
          | inl hold => exact hrecorded.same.queued f hold
          | inr hnew =>
              cases List.mem_singleton.mp hnew
              refine ⟨held.object.content, hnumber, ?_⟩
              rw [read]
              split
              · rename_i hsize
                rw [← hcontent, show held.object.size = 0 from hsize, slice, Nat.add_zero,
                  Nat.sub_self, List.take_zero]
              · simp only [hheld, if_true]
                exact congrArg _ hcontent
    refine hmid.1.stored hmid.2 hsentValid fun f _ _ _ => ?_
    rw [sent_memory]
  · cases h
    exact hs

/-- An append that finds room writes behind the content only. -/
theorem append_in_place {b b' : Buffer} {data : Bytes} (hroom : data.length ≤ b.writableBytes)
    (h : b.append data = .ok b') : overwrite b.buffer b.writerIndex data = .ok b'.buffer := by
  rw [Buffer.append, Buffer.ensureWritable, if_neg (by omega)] at h
  simp only [ok_bind, bind_eq_ok] at h
  obtain ⟨_, -, mem, hmem, h⟩ := h
  obtain ⟨_, -, h⟩ := bind_eq_ok.mp h
  cases h
  exact hmem

/-- Ranges on both sides of what was written are as before. -/
theorem overwrite_elsewhere {mem mem' bytes : Bytes} {pos i j : Nat}
    (h : overwrite mem pos bytes = .ok mem') (hout : j ≤ pos ∨ pos + bytes.length ≤ i) :
    slice mem' i j = slice mem i j := by
  cases hout with
  | inl hj => exact (overwrite_ok h).2.2.2 i j hj
  | inr hi =>
      unfold overwrite at h
      split at h
      · rename_i hle
        cases h
        have hdrop : (mem.take pos ++ bytes ++ mem.drop (pos + bytes.length)).drop i =
            mem.drop i := by
          rw [List.drop_append, List.drop_eq_nil_of_le, List.nil_append, List.drop_drop]
          · congr 1
            rw [List.length_append, List.length_take]
            omega
          · rw [List.length_append, List.length_take]
            omega
        simp only [slice, hdrop]
      · cases h

theorem retrieve_same {b b' : Buffer} {len : Nat} (hv : b.Valid) (h : b.retrieve len = .ok b') :
    b'.Valid ∧ b'.buffer = b.buffer := by
  obtain ⟨_, hrequire, hrest⟩ := bind_eq_ok.mp h
  have hle : len ≤ b.readableBytes := by
    by_contra hlt
    rw [require_of_false hlt] at hrequire
    cases hrequire
  obtain ⟨b₁, hb₁, hv', -, -⟩ := Buffer.retrieve_spec hv hle
  cases hb₁.symm.trans h
  refine ⟨hv', ?_⟩
  split at hrest
  · cases hrest
    rfl
  · cases hrest
    rfl

/-- Wherever a change puts the object, no functor reads it. -/
theorem change_gone (hs : s.Sound) {object : Nat} {o : Argument}
    (hv : ∀ b, o = .buffer b → b.Valid)
    (hspares : ∀ f ∈ s.queue, f.object = object → f.size = 0) (home : Nat) (moves : Bool) :
    (s.change object o home moves).Sound := by
  unfold change
  split
  · refine hs.gone (fun b _ heq => hv b ?_) hspares _
    cases heq
    rfl
  · refine hs.gone (fun b _ heq => hv b ?_) hspares s.homes
    cases heq
    rfl

/-- An append that finds room goes on where the object is. -/
theorem append_sound (hs : s.Sound) {object home : Nat} {data : Bytes} {moves : Bool}
    (hspares : s.Spares (.append object data moves)) {b b' : Buffer}
    (hheld : s.heap object = some ⟨.buffer b, home⟩) (hb' : b.append data = .ok b') :
    (s.change object (.buffer b') home (moves && b.buffer.length < b'.buffer.length)).Sound := by
  have hv : ∀ b'', Argument.buffer b' = .buffer b'' → b''.Valid := by
    rintro _ ⟨⟩
    exact (Buffer.append_ok (hs.valid object b home hheld) hb').1
  by_cases hfree : ∀ f ∈ s.queue, f.object = object → f.size = 0
  · exact change_gone hs hv hfree home _
  · push Not at hfree
    obtain ⟨f, hf, hobject, hsize⟩ := hfree
    have hroom := (hspares f hf hobject hsize b home hheld).1
    have hwrite := append_in_place hroom hb'
    have hstays : ¬ (moves && b.buffer.length < b'.buffer.length) = true := by
      rw [(overwrite_ok hwrite).2.1]
      simp
    rw [change, if_neg hstays]
    refine hs.stored hheld hv fun g hg hobject hsize => ?_
    exact overwrite_elsewhere hwrite (hspares g hg hobject hsize b home hheld).2

theorem exec_sound {t : Senders} {call : SendCall} (hs : s.Sound) (hspares : s.Spares call)
    (h : s.exec call = .ok t) : t.Sound := by
  cases call with
  | newBuffer object =>
      obtain ⟨b, hb, h⟩ := bind_eq_ok.mp h
      cases h
      obtain ⟨b', hb', hv, -⟩ :=
        Buffer.new_spec (show kCheapPrepend + kInitialSize ≤ maxSize by decide)
      cases hb'.symm.trans hb
      refine place_sound hs ?_
      rintro _ ⟨⟩
      exact hv
  | newText object text =>
      cases h
      exact place_sound hs fun _ heq => nomatch heq
  | send object inLoop result =>
      rw [exec] at h
      split at h
      · rename_i held hheld
        exact send_sound hs hheld h
      · cases h
        exact hs
  | append object data moves =>
      rw [exec] at h
      split at h
      · rename_i b home hheld
        obtain ⟨b', hb', h⟩ := bind_eq_ok.mp h
        cases h
        exact append_sound hs hspares hheld hb'
      · cases h
        exact hs
  | retrieve object len =>
      rw [exec] at h
      split at h
      · rename_i b home hheld
        obtain ⟨b', hb', h⟩ := bind_eq_ok.mp h
        cases h
        obtain ⟨hv, hsame⟩ := retrieve_same (hs.valid object b home hheld) hb'
        refine hs.stored hheld (fun _ heq => by cases heq; exact hv) fun _ _ _ _ => ?_
        rw [Argument.memory, Argument.memory, hsame]
      · cases h
        exact hs
  | assign object text moves =>
      rw [exec] at h
      split at h
      · cases h
        exact change_gone hs (fun _ heq => by cases heq) hspares _ moves
      · cases h
        exact hs
  | destroy object =>
      cases h
      exact hs.gone (fun _ _ heq => by cases heq) hspares s.homes
  | runFunctor result =>
      rw [exec] at h
      split at h
      · cases h
        exact hs
      · rename_i f queue hqueue
        obtain ⟨data, hdata, h⟩ := bind_eq_ok.mp h
        obtain ⟨data', hsent, hread⟩ := hs.same.queued f (by rw [hqueue]; exact List.mem_cons_self)
        cases hdata.symm.trans hread
        refine process_sound (s := { s with queue := queue })
          ⟨hs.valid, hs.same.processed, fun g hg => ?_⟩ hsent h
        exact hs.same.queued g (by rw [hqueue]; exact List.mem_cons_of_mem _ hg)
  | loop call =>
      obtain ⟨loop, -, h⟩ := bind_eq_ok.mp h
      cases h
      exact loop_sound hs loop

theorem start_sound (loop : InLoop) : (start loop).Sound :=
  ⟨nofun, nofun, nofun⟩

/-- In every run in which the callers spare the bytes of the functors that are
queued, every sendInLoop is handed what the argument held when send was called,
in the loop thread and in any other. -/
theorem send_same_from_any_thread {loop : InLoop} {calls : List SendCall}
    (hspares : Respects exec Spares (start loop) calls) :
    Always exec SendsSame (start loop) calls :=
  always_of_respects (fun _ hs => hs.same) (fun _ _ _ hs hspares h => exec_sound hs hspares h)
    (start_sound loop) hspares

/-- A string that is sent by the loop thread and by another one. -/
theorem send_same_from_any_thread_text :
    ∃ loop, loop.Established ∧ Always exec SendsSame (start loop) [.newText 0 [1, 2],
      .send 0 true (.wrote 2), .send 0 false (.wrote 2), .runFunctor (.wrote 1)] := by
  obtain ⟨loop, hloop, -⟩ := resultHolds_iff.mp
    (show resultHolds (fun _ => True) InLoop.establish = true by decide +kernel)
  refine ⟨loop, InLoop.establish_ok hloop, ?_⟩
  refine send_same_from_any_thread (respects_of_forall (fun call hcall s => ?_) _)
  simp only [List.mem_cons, List.not_mem_nil, or_false] at hcall
  rcases hcall with rfl | rfl | rfl | rfl
  all_goals trivial

/-- A buffer that is sent from another thread and filled again before the functor
runs. -/
theorem send_differs_after_append :
    ∃ loop s, loop.Established ∧ run exec (start loop)
      [.newBuffer 0, .append 0 [1, 2, 3] false, .send 0 false (.wrote 3), .append 0 [9, 9, 9] false,
        .runFunctor (.wrote 3)] = .ok s ∧
      s.sent = [[1, 2, 3]] ∧ s.processed = [(0, [9, 9, 9])] ∧ ¬ s.SendsSame := by
  obtain ⟨s, hs, hsent, hprocessed⟩ := resultHolds_iff.mp (show resultHolds (fun s : Senders =>
      s.sent = [[1, 2, 3]] ∧ s.processed = [(0, [9, 9, 9])])
    (InLoop.establish >>= fun loop => run exec (start loop)
      [.newBuffer 0, .append 0 [1, 2, 3] false, .send 0 false (.wrote 3), .append 0 [9, 9, 9] false,
        .runFunctor (.wrote 3)]) = true by decide +kernel)
  obtain ⟨loop, hloop, hrun⟩ := bind_eq_ok.mp hs
  refine ⟨loop, s, InLoop.establish_ok hloop, hrun, hsent, hprocessed, fun hsame => ?_⟩
  have hfirst := hsame.processed 0 [9, 9, 9] (hprocessed ▸ List.mem_singleton.mpr rfl)
  rw [hsent] at hfirst
  exact absurd hfirst (by decide)

end Senders
end TAlib
