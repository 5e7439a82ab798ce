import TAlib.Redis.Lending
import TAlib.Redis.Transport

/-!
The cache of src/Redis/RedisCache.cpp among several threads. A call borrows a
connection from the pool, tests it as RedisConnect::grasp does, executes one
command on it and gives it back. Between any two of these steps the other threads
do what they like, in the pool and with connections of their own. A connection is
in use by one thread at a time because the pool lends it to one; and since a
connection whose last command failed is not lent again, what a command finds on the
wire and in the socket is whole.
-/

namespace TAlib

open Foundation RedisConnect

namespace RedisCache

/-- The defaults of RedisConnect::Setup. -/
def memsz : Nat := 2 * 1024 * 1024
def timeout : Int := 3000

end RedisCache

/-- What came of a call of the cache; of a get also what it put into value, its bytes
on the wire and the server's answer to them. -/
inductive CacheAnswer where
  | set (key val : Bytes) (result : Bool)
  | get (key : Bytes) (result : Bool) (value : Option Bytes) (sent reply : Bytes)
  deriving DecidableEq, Repr

/-- The pool with its borrowers, the connections by their numbers, and the results of
the pool that have passed the test of grasp and are not used yet. -/
structure RedisCacheRun where
  pool : PoolRun
  links : List Link
  usable : List (Nat × Resource)
  answers : List CacheAnswer
  deriving DecidableEq, Repr

inductive CacheTurn where
  /-- A step in the pool. A connection that is made there has these bytes in its
  buffer. -/
  | pool (turn : PoolTurn) (buffer : Bytes)
  /-- The test of getErrorCode in grasp. -/
  | check (result : Nat) (data : Resource)
  | set (result : Nat) (data : Resource) (key val : Bytes) (x : Exchange)
  | get (result : Nat) (data : Resource) (key : Bytes) (x : Exchange)
  deriving DecidableEq, Repr

namespace RedisCacheRun

def new (threads : Nat) (maxlen timeout : Int) : RedisCacheRun :=
  ⟨PoolRun.new threads maxlen timeout, [], [], []⟩

/-- The connection behind a call of the cache. -/
def finish (s : RedisCacheRun) (result : Nat) (data : Resource) (l : Link) (answer : CacheAnswer) :
    RedisCacheRun :=
  { s with
    links := s.links.set data l
    usable := s.usable.filter (· ≠ (result, data))
    answers := s.answers ++ [answer] }

/-- Where grasp has given no connection to the call, redis is NULL, and the call goes
through it all the same. -/
def exec (s : RedisCacheRun) : CacheTurn → Except Fault RedisCacheRun
  | .pool turn buffer => do
      let pool ← s.pool.exec turn
      return { s with
        pool := pool
        links := if s.pool.created < pool.created then
          s.links ++ [Link.connect RedisCache.memsz RedisCache.timeout buffer] else s.links
        usable := s.usable.filter pool.held.contains }
  | .check result data =>
      match s.links[data]? with
      | none => .ok s
      | some l =>
          if s.pool.held.contains (result, data) then
            if l.getErrorCode ≠ 0 then do
              let pool ← s.pool.exec (.disable (some data))
              return { s with pool := pool }
            else .ok { s with usable := (result, data) :: s.usable }
          else .ok s
  | .set result data key val x =>
      match s.links[data]? with
      | none => .error .nullPointer
      | some l =>
          if s.usable.contains (result, data) then do
            let (code, l) ← l.set key val x
            return s.finish result data l (.set key val (code ≠ PARAMERR))
          else .error .nullPointer
  | .get result data key x =>
      match s.links[data]? with
      | none => .error .nullPointer
      | some l =>
          if s.usable.contains (result, data) then do
            let (code, value, l) ← l.get key x
            return s.finish result data l (.get key (code = OK) value
              (Link.sent (Command.new (Link.getArgs key)) x) x.reply)
          else .error .nullPointer

/-- The server answers the commands as they become complete on their connection. -/
def Served (s : RedisCacheRun) : CacheTurn → Prop
  | .pool _ _ | .check _ _ => True
  | .set _ data key val x => ∀ l, s.links[data]? = some l → l.Served (Link.setArgs key val) x
  | .get _ data key x => ∀ l, s.links[data]? = some l → l.Served (Link.getArgs key) x

end RedisCacheRun

/-- A get says that it found a value only if the server answered this very get with
it. A set always says that it is done. -/
def CacheAnswer.Own : CacheAnswer → Prop
  | .set _ _ result => result = true
  | .get key result value sent reply =>
      (result = true → ∃ val, value = some val ∧ reply = Reply.bulkText val ∧
        sent = commandText (Link.getArgs key)) ∧
      (result = false → value = none)

namespace PoolRun

theorem step_created {s t : PoolRun} {thread : Nat} {c : GetCall} {clock : Int} {made : Bool}
    (h : s.step thread c clock made = .ok t) :
    t.created = s.created ∨ t.created = s.created + 1 := by
  cases hpoint : c.point with
  | idle | entering | grasping | deciding _ _ =>
      simp only [step, hpoint] at h
      cases h
      exact .inl rfl
  | bypassing | creating _ _ =>
      simp only [step, hpoint] at h
      cases h
      split
      · exact .inr rfl
      · exact .inl rfl
  | locking now =>
      simp only [step, hpoint] at h
      cases h
      unfold lockedScan
      dsimp only
      split
      · exact .inl rfl
      · split
        · exact .inl rfl
        · exact .inl rfl
  | recording idx tmp data =>
      simp only [step, hpoint, bind_eq_ok] at h
      obtain ⟨pool, -, h⟩ := h
      cases h
      exact .inl rfl
  | returning tmp data =>
      cases data with
      | none =>
          simp only [step, hpoint] at h
          cases h
          unfold retry
          split
          · exact .inl rfl
          · exact .inl rfl
      | some data =>
          simp only [step, hpoint] at h
          cases h
          exact .inl rfl

theorem exec_created {s t : PoolRun} {turn : PoolTurn} (h : s.exec turn = .ok t) :
    t.created = s.created ∨ t.created = s.created + 1 := by
  cases turn with
  | call thread =>
      simp only [exec] at h
      split at h
      · cases h
        exact .inl rfl
      · cases h
        exact .inl rfl
  | step thread clock made =>
      simp only [exec] at h
      split at h
      · exact step_created h
      · cases h
        exact .inl rfl
  | copy result data =>
      simp only [exec] at h
      cases h
      split
      · exact .inl rfl
      · exact .inl rfl
  | drop result data =>
      cases h
      exact .inl rfl
  | clear | setCreator | disable data | setLength maxlen | setTimeout timeout =>
      cases h
      exact .inl rfl

end PoolRun

namespace RedisCacheRun

/-- Every connection is in order, and one that is about to be used has not failed. -/
structure Ready (s : RedisCacheRun) : Prop where
  pool : s.pool.Sound
  length : s.links.length = s.pool.created
  links : ∀ l ∈ s.links, l.Orderly
  usable : ∀ c ∈ s.usable, c ∈ s.pool.held ∧ ∀ l, s.links[c.2]? = some l → 0 ≤ l.redis.code
  answers : ∀ a ∈ s.answers, a.Own

variable {s t : RedisCacheRun}

theorem new_ready (threads : Nat) (maxlen timeout : Int) : (new threads maxlen timeout).Ready :=
  ⟨PoolRun.new_sound threads maxlen timeout, rfl, nofun, nofun, nofun⟩

theorem getErrorCode_eq_zero {l : Link} (h : ¬ l.getErrorCode ≠ 0) : 0 ≤ l.redis.code := by
  by_contra hneg
  refine h ?_
  simp only [Link.getErrorCode, Connection.getErrorCode, Bool.false_eq_true, if_false,
    if_pos (Int.not_le.mp hneg)]
  omega

/-- A call of the cache ends, and its connection has one borrower, so nobody else is
about to use it. -/
theorem Ready.finish (hs : s.Ready) {result : Nat} {data : Resource} {l : Link}
    {answer : CacheAnswer}
    (hmem : (result, data) ∈ s.usable) (hl : l.Orderly) (hown : answer.Own) :
    (s.finish result data l answer).Ready := by
  refine ⟨hs.pool, (List.length_set ..).trans hs.length, fun k hk => ?_, fun c hc => ?_,
    fun a ha => ?_⟩
  · rcases List.mem_or_eq_of_mem_set hk with hk | rfl
    · exact hs.links k hk
    · exact hl
  · obtain ⟨hc, hne⟩ := List.mem_filter.mp hc
    obtain ⟨hheld, hcode⟩ := hs.usable c hc
    refine ⟨hheld, fun k hk => hcode k ?_⟩
    have hother : data ≠ c.2 := by
      rintro rfl
      have := hs.pool.exclusive _ _ _ hheld (hs.usable _ hmem).1
      exact of_decide_eq_true hne (Prod.ext this rfl)
    simpa only [RedisCacheRun.finish, List.getElem?_set_ne hother] using hk
  · rcases List.mem_append.mp ha with ha | ha
    · exact hs.answers a ha
    · exact List.mem_singleton.mp ha ▸ hown

/-- A step in the pool leaves the connections alone that are about to be used. -/
theorem Ready.pool_turn (hs : s.Ready) {turn : PoolTurn} {buffer : Bytes}
    (h : s.exec (.pool turn buffer) = .ok t) : t.Ready := by
  obtain ⟨pool, hpool, h⟩ := bind_eq_ok.mp h
  cases h
  have hsound := PoolRun.exec_sound hs.pool hpool
  have hfresh : (Link.connect RedisCache.memsz RedisCache.timeout buffer).Orderly :=
    Link.connect_orderly (by decide) (by decide) (by decide) _
  have hold (c : Nat × Resource) (hc : c ∈ s.usable) (l : Link)
      (hl : (if s.pool.created < pool.created then
          s.links ++ [Link.connect RedisCache.memsz RedisCache.timeout buffer] else s.links)[c.2]? =
        some l) : 0 ≤ l.redis.code := by
    obtain ⟨hheld, hcode⟩ := hs.usable c hc
    have hlt : c.2 < s.links.length := hs.length ▸ hs.pool.lent c.1 c.2 (.inl hheld)
    split at hl
    · rw [List.getElem?_append_left hlt] at hl
      exact hcode l hl
    · exact hcode l hl
  refine ⟨hsound, ?_, fun l hl => ?_, fun c hc => ?_, hs.answers⟩
  · dsimp only
    have := hs.length
    have := PoolRun.exec_created hpool
    split
    · rw [List.length_append, List.length_singleton]
      omega
    · omega
  · dsimp only at hl
    split at hl
    · rcases List.mem_append.mp hl with hl | hl
      · exact hs.links l hl
      · exact List.mem_singleton.mp hl ▸ hfresh
    · exact hs.links l hl
  · obtain ⟨hc, hheld⟩ := List.mem_filter.mp hc
    exact ⟨List.contains_iff_mem.mp hheld, hold c hc⟩

/-- What a thread has borrowed and tested is a connection that can be used. -/
theorem Ready.borrowed (hs : s.Ready) {result : Nat} {data : Resource}
    (hmem : (result, data) ∈ s.usable) :
    ∃ l, s.links[data]? = some l ∧ l.Orderly ∧ 0 ≤ l.redis.code := by
  obtain ⟨hheld, hcode⟩ := hs.usable _ hmem
  have hlt : data < s.links.length := hs.length ▸ hs.pool.lent result data (.inl hheld)
  have hl := List.getElem?_eq_getElem hlt
  exact ⟨_, hl, hs.links _ (List.mem_of_getElem? hl), hcode _ hl⟩

/-- The borrower of a connection uses it, and the cache has its answer. -/
theorem Ready.set_turn (hs : s.Ready) {result : Nat} {data : Resource} {key val : Bytes}
    {x : Exchange} (hserved : s.Served (.set result data key val x))
    (hmem : (result, data) ∈ s.usable) :
    ∃ t, s.exec (.set result data key val x) = .ok t ∧ t.Ready := by
  obtain ⟨l, hl, horderly, hcode⟩ := hs.borrowed hmem
  obtain ⟨code, l', hset, hl', hparam⟩ := Link.set_orderly horderly hcode (hserved l hl)
  simp only [exec, hl, if_pos (List.contains_iff_mem.mpr hmem), hset, ok_bind]
  exact ⟨_, rfl, hs.finish hmem hl' (decide_eq_true hparam)⟩

theorem Ready.get_turn (hs : s.Ready) {result : Nat} {data : Resource} {key : Bytes} {x : Exchange}
    (hserved : s.Served (.get result data key x)) (hmem : (result, data) ∈ s.usable) :
    ∃ t, s.exec (.get result data key x) = .ok t ∧ t.Ready := by
  obtain ⟨l, hl, horderly, hcode⟩ := hs.borrowed hmem
  obtain ⟨code, val, l', hget, hl', hval⟩ := Link.get_orderly horderly hcode (hserved l hl)
  simp only [exec, hl, if_pos (List.contains_iff_mem.mpr hmem), hget, ok_bind]
  refine ⟨_, rfl, hs.finish hmem hl' ⟨fun hok => ?_, fun hno => ?_⟩⟩
  · rcases hval with ⟨-, v, hv, hreply, hsent⟩ | ⟨hneg, -⟩
    · exact ⟨v, hv, hreply, hsent⟩
    · rw [of_decide_eq_true hok] at hneg
      exact absurd hneg (by decide)
  · rcases hval with ⟨hok, -⟩ | ⟨-, hnone⟩
    · exact absurd hok (of_decide_eq_false hno)
    · exact hnone

/-- A call that returns has borrowed its connection. -/
theorem borrowed_of_set {result : Nat} {data : Resource} {key val : Bytes} {x : Exchange}
    (h : s.exec (.set result data key val x) = .ok t) : (result, data) ∈ s.usable := by
  by_contra hmem
  simp only [exec, if_neg (mt List.contains_iff_mem.mp hmem)] at h
  split at h <;> cases h

theorem borrowed_of_get {result : Nat} {data : Resource} {key : Bytes} {x : Exchange}
    (h : s.exec (.get result data key x) = .ok t) : (result, data) ∈ s.usable := by
  by_contra hmem
  simp only [exec, if_neg (mt List.contains_iff_mem.mp hmem)] at h
  split at h <;> cases h

theorem exec_ready (hs : s.Ready) {turn : CacheTurn} (hserved : s.Served turn)
    (h : s.exec turn = .ok t) : t.Ready := by
  cases turn with
  | pool turn buffer => exact hs.pool_turn h
  | check result data =>
      simp only [exec] at h
      split at h
      · cases h
        exact hs
      · rename_i l hl
        split at h
        · rename_i hheld
          split at h
          · obtain ⟨pool, hpool, h⟩ := bind_eq_ok.mp h
            cases h
            have hsound := PoolRun.exec_sound hs.pool hpool
            cases hpool
            exact ⟨hsound, hs.length, hs.links, hs.usable, hs.answers⟩
          · rename_i hcode
            cases h
            refine ⟨hs.pool, hs.length, hs.links, fun c hc => ?_, hs.answers⟩
            cases hc with
            | head =>
                refine ⟨List.contains_iff_mem.mp hheld, fun k hk => ?_⟩
                cases hl.symm.trans hk
                exact getErrorCode_eq_zero hcode
            | tail _ hc => exact hs.usable c hc
        · cases h
          exact hs
  | set result data key val x =>
      obtain ⟨t', ht', hready⟩ := hs.set_turn hserved (borrowed_of_set h)
      cases ht'.symm.trans h
      exact hready
  | get result data key x =>
      obtain ⟨t', ht', hready⟩ := hs.get_turn hserved (borrowed_of_get h)
      cases ht'.symm.trans h
      exact hready

variable (threads : Nat) (maxlen timeout : Int) (turns : List CacheTurn)

/-- Whatever the threads do in whichever order, however the bytes of commands and
replies are torn up, delayed or lost: with a server that answers what it is asked, a
get of the cache gives out only the value that the server sent for it. -/
theorem answers_own (hserved : Respects exec Served (new threads maxlen timeout) turns) :
    Always exec (fun s => ∀ a ∈ s.answers, a.Own) (new threads maxlen timeout) turns :=
  always_of_respects (fun _ hs => hs.answers) (fun _ _ _ hs hserved h => exec_ready hs hserved h)
    (new_ready threads maxlen timeout) hserved

/-- A thread borrows a new connection. -/
def borrowing : List CacheTurn :=
  (.call 0 :: List.replicate 7 (.step 0 1 true)).map (.pool · [1, 2, 3]) ++ [.check 0 0]

/-- It asks for the key "k". The command goes out in two parts, and the value "v"
comes in two pieces. -/
def asking : CacheTurn :=
  .get 0 0 [107] ⟨[.took 4, .nothing, .took 99], Reply.bulkText [118],
    [.bytes 2, .nothing, .bytes 9]⟩

theorem asking_served : Respects exec Served (new 1 8 60) (borrowing ++ [asking]) := by
  have hborrowing : Respects exec Served (new 1 8 60) borrowing := by
    refine respects_of_forall (fun turn hturn s => ?_) _
    rcases List.mem_append.mp hturn with h | h
    · obtain ⟨step, -, rfl⟩ := List.mem_map.mp h
      trivial
    · cases List.mem_singleton.mp h
      trivial
  refine hborrowing.append fun m hm => ⟨fun l hl => ?_, fun _ _ => trivial⟩
  obtain ⟨m', hm', hlinks⟩ := resultHolds_iff.mp (show resultHolds
    (fun m => m.links = [Link.connect RedisCache.memsz RedisCache.timeout [1, 2, 3]])
    (run exec (new 1 8 60) borrowing) = true by decide +kernel)
  cases hm'.symm.trans hm
  rw [hlinks] at hl
  cases hl
  exact Link.served_whole
    ((Link.connect_orderly (by decide) (by decide) (by decide) _).clean (by decide)).1
    (by decide +kernel) (.found _ _) (by decide)

theorem answers_own_asking : Always exec (fun s => ∀ a ∈ s.answers, a.Own) (new 1 8 60)
    (borrowing ++ [asking]) := answers_own 1 8 60 _ asking_served

/-- A call of the cache on a connection that its thread has borrowed returns. -/
def Returns (s : RedisCacheRun) : CacheTurn → Prop
  | .pool _ _ | .check _ _ => True
  | .set result data key val x =>
      (result, data) ∈ s.usable → ∃ t, s.exec (.set result data key val x) = .ok t
  | .get result data key x =>
      (result, data) ∈ s.usable → ∃ t, s.exec (.get result data key x) = .ok t

/-- No call that has its connection runs off the receive buffer or the elements of
its reply. -/
theorem calls_return (hserved : Respects exec Served (new threads maxlen timeout) turns) :
    Respects exec Returns (new threads maxlen timeout) turns := by
  refine hserved.of_invariant (fun s turn hs hserved => ?_)
    (fun _ _ _ hs hserved h => exec_ready hs hserved h) (new_ready threads maxlen timeout)
  cases turn with
  | pool turn buffer => trivial
  | check result data => trivial
  | set result data key val x =>
      intro hmem
      obtain ⟨t, ht, -⟩ := hs.set_turn hserved hmem
      exact ⟨t, ht⟩
  | get result data key x =>
      intro hmem
      obtain ⟨t, ht, -⟩ := hs.get_turn hserved hmem
      exact ⟨t, ht⟩

theorem calls_return_asking :
    ∃ s t, run exec (new 1 8 60) borrowing = .ok s ∧ s.exec asking = .ok t := by
  obtain ⟨s, hs, husable⟩ := resultHolds_iff.mp (show resultHolds
    (fun s => s.usable = [(0, 0)]) (run exec (new 1 8 60) borrowing) = true by decide +kernel)
  have hreturns := (calls_return 1 8 60 _ asking_served).suffix hs
  obtain ⟨t, ht⟩ := hreturns.1 (husable ▸ List.mem_cons_self)
  exact ⟨s, t, hs, ht⟩

/-- The server reads on every connection exactly the commands that were sent whole on
it, whatever bytes the keys and values hold. -/
theorem wires_framed (hserved : Respects exec Served (new threads maxlen timeout) turns) :
    Always exec (fun s => ∀ l ∈ s.links, (∃ part, Framed commandText l.wire l.issued part) ∧
      ∀ cmds part, Framed commandText l.wire cmds part → cmds = l.issued)
      (new threads maxlen timeout) turns := by
  refine always_of_respects (fun s hs l hl => ?_)
    (fun _ _ _ hs hserved h => exec_ready hs hserved h) (new_ready threads maxlen timeout) hserved
  obtain ⟨part, hframed⟩ := (hs.links l hl).framed
  exact ⟨⟨part, hframed⟩, fun cmds part' h => (h.unique commandText_selfDelimiting hframed).1⟩

theorem wires_framed_asking :
    Always exec (fun s => ∀ l ∈ s.links, (∃ part, Framed commandText l.wire l.issued part) ∧
      ∀ cmds part, Framed commandText l.wire cmds part → cmds = l.issued)
      (new 1 8 60) (borrowing ++ [asking]) := wires_framed 1 8 60 _ asking_served

/-- The value comes out. -/
example : resultHolds (fun s => s.answers = [.get [107] true (some [118])
    (commandText (Link.getArgs [107])) (Reply.bulkText [118])])
    (run exec (new 1 8 60) (borrowing ++ [asking])) = true := by decide +kernel

end RedisCacheRun
end TAlib
