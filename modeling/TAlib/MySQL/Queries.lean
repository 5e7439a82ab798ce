import TAlib.MySQL.Exclusivity
import TAlib.MySQL.Query

/-!
Connection::executeQuery among the threads of the pool. A thread queries a connection
that it holds, and the others do what they like between mysql_real_query and
mysql_store_result, which find the connection as the last call on it left it: a result
that nobody has stored is in the way of the next query, and is what the next
mysql_store_result returns. The server executes one statement after the other.
-/

namespace TAlib

open Foundation

/-- Where a thread stands in executeQuery. -/
inductive QueryPoint where
  | outside
  /-- Before mysql_real_query. -/
  | asking (conn : Nat) (statement : Bytes)
  /-- Before mysql_store_result. -/
  | storing (conn : Nat)
  deriving DecidableEq

/-- A statement that the server has executed for a thread. -/
structure Executed where
  thread : Nat
  statement : Bytes
  outcome : QueryOutcome

/-- The threads, what the server knows, and the result that is still to be stored on each
connection. `log` is what the server has executed, `asked` the statements that a thread
has called executeQuery with, `answers` what these calls have returned. -/
structure QueryThreads (δ : Type) where
  pool : PoolThreads
  database : δ
  unread : Nat → Option ResultSet
  point : Nat → QueryPoint
  log : List Executed
  asked : Nat → List Bytes
  answers : Nat → List QueryResult

inductive QueryCall where
  | pool (call : PoolCall)
  /-- A thread calls executeQuery. -/
  | executeQuery (thread conn : Nat) (statement : Bytes)
  /-- The thread goes on to mysql_real_query and behind it; q has these bytes before. -/
  | realQuery (thread : Nat) (q : QueryArray)
  /-- The thread goes on to mysql_store_result and to the end of executeQuery. -/
  | storeResult (thread : Nat)

inductive QueryStop where
  | pool (stop : PoolStop)
  | query (fault : Fault)
  deriving DecidableEq

def PoolCall.thread : PoolCall → Nat
  | .getConnection thread | .releaseConnection thread _ | .step thread _ => thread

namespace QueryThreads

variable {δ : Type}

def new (poolSize : Int) (database : δ) : QueryThreads δ :=
  ⟨.new poolSize, database, fun _ => none, fun _ => .outside, [], fun _ => [], fun _ => []⟩

def goto (s : QueryThreads δ) (thread : Nat) (p : QueryPoint) : QueryThreads δ :=
  { s with point := Function.update s.point thread p }

/-- A thread begins executeQuery. -/
def ask (s : QueryThreads δ) (thread conn : Nat) (statement : Bytes) : QueryThreads δ :=
  { s with
    point := Function.update s.point thread (.asking conn statement)
    asked := Function.update s.asked thread (s.asked thread ++ [statement]) }

/-- mysql_real_query. While a result is still to be stored it refuses, and nothing is
sent. -/
def realQuery (server : δ → Bytes → QueryOutcome × δ) (s : QueryThreads δ) (thread conn : Nat)
    (bytes : Bytes) : QueryThreads δ :=
  match s.unread conn with
  | some _ => s.goto thread (.storing conn)
  | none =>
      let (outcome, database) := server s.database bytes
      { s with
        database := database
        unread := Function.update s.unread conn outcome.resultSet
        point := Function.update s.point thread (.storing conn)
        log := s.log ++ [⟨thread, bytes, outcome⟩] }

/-- Behind the loop over the rows, with mysql_free_result and the return. -/
def finish (s : QueryThreads δ) (thread conn : Nat) (r : QueryResult) : QueryThreads δ :=
  { s with
    unread := Function.update s.unread conn none
    point := Function.update s.point thread .outside
    answers := Function.update s.answers thread (s.answers thread ++ [r]) }

/-- A thread that is in one of the functions calls none. -/
def exec (server : δ → Bytes → QueryOutcome × δ) (s : QueryThreads δ) :
    QueryCall → Except QueryStop (QueryThreads δ)
  | .pool call =>
      if s.point call.thread = .outside then
        match s.pool.exec call with
        | .error stop => .error (.pool stop)
        | .ok pool => .ok { s with pool := pool }
      else .ok s
  | .executeQuery thread conn statement =>
      if s.point thread = .outside ∧ s.pool.point thread = .idle then
        .ok (s.ask thread conn statement)
      else .ok s
  | .realQuery thread q =>
      match s.point thread with
      | .asking conn statement =>
          match Connection.queryBytes q statement with
          | .error fault => .error (.query fault)
          | .ok bytes => .ok (s.realQuery server thread conn bytes)
      | _ => .ok s
  | .storeResult thread =>
      match s.point thread with
      | .storing conn =>
          match Connection.fetchAll (s.unread conn) with
          | .error fault => .error (.query fault)
          | .ok r => .ok (s.finish thread conn r)
      | _ => .ok s

/-- A thread uses and releases the connections that it holds, and its statements have
room in the array. -/
def Orderly (s : QueryThreads δ) : QueryCall → Prop
  | .pool call => s.pool.Orderly call
  | .executeQuery thread conn statement =>
      conn ∈ s.pool.held thread ∧ Connection.strlen statement < kQuerySize
  | .realQuery _ _ | .storeResult _ => True

instance (s : QueryThreads δ) : (call : QueryCall) → Decidable (s.Orderly call)
  | .pool call => inferInstanceAs (Decidable (s.pool.Orderly call))
  | .executeQuery thread conn statement =>
      inferInstanceAs (Decidable (conn ∈ s.pool.held thread ∧
        Connection.strlen statement < kQuerySize))
  | .realQuery _ _ | .storeResult _ => isTrue trivial

/-- What the server has executed for a thread. -/
def sent (s : QueryThreads δ) (thread : Nat) : List Bytes :=
  (s.log.filter fun e => e.thread = thread).map Executed.statement

def outcomes (s : QueryThreads δ) (thread : Nat) : List QueryOutcome :=
  (s.log.filter fun e => e.thread = thread).map Executed.outcome

/-- The statement that a thread has still to send. -/
def unsent (s : QueryThreads δ) (thread : Nat) : List Bytes :=
  match s.point thread with
  | .asking _ statement => [statement]
  | _ => []

/-- The outcomes that the thread has taken. -/
def taken (s : QueryThreads δ) (thread : Nat) : List QueryOutcome :=
  match s.point thread with
  | .storing _ => (s.outcomes thread).dropLast
  | _ => s.outcomes thread

end QueryThreads

/-- The statement as a C string. -/
def Connection.text (statement : Bytes) : Bytes := statement.takeWhile (· ≠ 0)

/-- The server alone with these statements, one after the other. -/
def replay {δ : Type} (server : δ → Bytes → QueryOutcome × δ) :
    δ → List Bytes → List QueryOutcome × δ
  | database, [] => ([], database)
  | database, statement :: statements =>
      let (outcome, database) := server database statement
      let (outcomes, database) := replay server database statements
      (outcome :: outcomes, database)

/-- There is a result set, without NULL in it. -/
def QueryOutcome.Tabular (o : QueryOutcome) : Prop :=
  ∃ resultSet, o.resultSet = some resultSet ∧ ∀ row ∈ resultSet.rows, none ∉ row

namespace Connection

/-- The loop over the fields, by induction on the columns. -/
theorem stringRow_ok {row : List Column} (h : none ∉ row) :
    ∃ strings, stringRow row row.length = .ok strings := by
  induction row with
  | nil => exact ⟨[], rfl⟩
  | cons column row ih =>
      obtain ⟨hcolumn, hrow⟩ := not_or.mp (List.mem_cons.not.mp h)
      obtain ⟨strings, hstrings⟩ := ih hrow
      cases column with
      | none => exact absurd rfl hcolumn
      | some value =>
          refine ⟨value.takeWhile (· ≠ 0) :: strings, ?_⟩
          rw [List.length_cons, stringRow, columnString, ok_bind, hstrings]
          rfl

theorem run_fetchRow_ok {fields : Nat} {rows : List (List Column)} (r : QueryResult)
    (hwidth : ∀ row ∈ rows, row.length = fields) (h : ∀ row ∈ rows, none ∉ row) :
    ∃ r', run (fetchRow fields) r rows = .ok r' := by
  induction rows generalizing r with
  | nil => exact ⟨r, rfl⟩
  | cons row rows ih =>
      obtain ⟨hlength, hwidth⟩ := List.forall_mem_cons.mp hwidth
      obtain ⟨hrow, hrows⟩ := List.forall_mem_cons.mp h
      obtain ⟨strings, hstrings⟩ := stringRow_ok hrow
      obtain ⟨r', hrun⟩ := ih (r.addRow strings) hwidth hrows
      refine ⟨r', run_cons_ok.mpr ⟨r.addRow strings, ?_, hrun⟩⟩
      rw [fetchRow, ← hlength, hstrings]
      rfl

theorem fetchAll_ok {o : QueryOutcome} (h : o.Tabular) : ∃ r, fetchAll o.resultSet = .ok r := by
  obtain ⟨resultSet, hset, hrows⟩ := h
  rw [hset]
  exact run_fetchRow_ok ⟨[]⟩ resultSet.width hrows

end Connection

namespace PoolThreads

variable {s t : PoolThreads} {thread u : Nat}

theorem lock_held {p : PoolPoint} (h : s.lock thread p = .ok t) : t.held = s.held := by
  obtain ⟨m, -, h⟩ := bind_eq_ok.mp h
  split at h
  · cases h
    rfl
  · cases h
    rfl

theorem lockInit_held {p : PoolPoint} (h : s.lockInit thread p = .ok t) : t.held = s.held := by
  obtain ⟨m, -, h⟩ := bind_eq_ok.mp h
  split at h
  · cases h
    rfl
  · cases h
    rfl

theorem unlock_held {p : PoolPoint} (h : s.unlock thread p = .ok t) : t.held = s.held := by
  obtain ⟨m, -, h⟩ := bind_eq_ok.mp h
  cases h
  rfl

theorem create_held {connected : Bool} (h : s.create connected = .ok t) : t.held = s.held := by
  unfold create at h
  split at h
  · cases h
  · split at h
    · cases h
    · cases h
      rfl

theorem scan_held {i : Nat} (hu : u ≠ thread) (h : s.scan thread i = .ok t) :
    t.held u = s.held u := by
  unfold scan at h
  split at h
  · obtain ⟨slot, -, h⟩ := bind_eq_ok.mp h
    split at h
    · cases h
      exact Function.update_of_ne hu _ _
    · cases h
      rfl
  · cases h
    rfl

theorem search_held {conn i : Nat} (hu : u ≠ thread) (h : s.search thread conn i = .ok t) :
    t.held u = s.held u := by
  unfold search at h
  split at h
  · obtain ⟨slot, -, h⟩ := bind_eq_ok.mp h
    split at h
    · cases h
      exact Function.update_of_ne hu _ _
    · cases h
      rfl
  · cases h
    rfl

/-- What a thread holds is changed by its own steps only. -/
theorem step_held {connected : Bool} (hu : u ≠ thread) (h : s.step thread connected = .ok t) :
    t.held u = s.held u := by
  unfold step at h
  split at h
  · cases h
    rfl
  · exact congrFun (lockInit_held h) u
  · cases h
    rfl
  · obtain ⟨m, -, h⟩ := bind_eq_ok.mp h
    cases h
    rfl
  · obtain ⟨m, -, h⟩ := bind_eq_ok.mp h
    cases h
    rfl
  · obtain ⟨m, hm, h⟩ := bind_eq_ok.mp h
    cases h
    exact congrFun (create_held hm) u
  · obtain ⟨m, -, h⟩ := bind_eq_ok.mp h
    cases h
    rfl
  · exact congrFun (lock_held h) u
  · exact scan_held hu h
  · exact congrFun (unlock_held h) u
  · exact congrFun (unlock_held h) u
  · exact congrFun (lock_held h) u
  · exact search_held hu h
  · exact congrFun (unlock_held h) u

theorem exec_held {call : PoolCall} (hu : u ≠ call.thread) (h : s.exec call = .ok t) :
    t.held u = s.held u := by
  cases call with
  | getConnection thread | releaseConnection thread conn =>
      cases h
      split
      · rfl
      · rfl
  | step thread connected => exact step_held hu h

end PoolThreads

section Replay

variable {δ : Type} {server : δ → Bytes → QueryOutcome × δ}

/-- One statement more, by induction on those before it. -/
theorem replay_append (database : δ) (statements : List Bytes) (statement : Bytes) :
    replay server database (statements ++ [statement]) =
      ((replay server database statements).1 ++
          [(server (replay server database statements).2 statement).1],
        (server (replay server database statements).2 statement).2) := by
  induction statements generalizing database with
  | nil => rfl
  | cons first statements ih =>
      simp only [List.cons_append, replay, ih]

end Replay

namespace QueryThreads

variable {δ : Type} {server : δ → Bytes → QueryOutcome × δ} {database : δ} {s t : QueryThreads δ}
  {thread conn u : Nat} {statement : Bytes}

/-- What executeQuery returns for this outcome. -/
def Fetched (o : QueryOutcome) (r : QueryResult) : Prop :=
  Connection.fetchAll o.resultSet = .ok r

/-- The thread is in executeQuery with this connection. -/
def Uses (s : QueryThreads δ) (thread conn : Nat) : Prop :=
  match s.point thread with
  | .outside => False
  | .asking c _ | .storing c => c = conn

/-- What every step keeps. -/
structure Sound (server : δ → Bytes → QueryOutcome × δ) (database : δ) (s : QueryThreads δ) :
    Prop where
  pool : s.pool.Sound
  uses : ∀ {thread conn}, s.Uses thread conn → conn ∈ s.pool.held thread
  short : ∀ {thread conn statement}, s.point thread = .asking conn statement →
    Connection.strlen statement < kQuerySize
  stored : ∀ {thread conn}, s.point thread = .storing conn →
    ∃ o, (s.outcomes thread).getLast? = some o ∧ s.unread conn = o.resultSet
  clear : ∀ {conn}, (∀ thread, s.point thread ≠ .storing conn) → s.unread conn = none
  serial : replay server database (s.log.map Executed.statement) =
    (s.log.map Executed.outcome, s.database)
  own : ∀ thread, s.sent thread ++ (s.unsent thread).map Connection.text =
    (s.asked thread).map Connection.text
  results : ∀ thread, List.Forall₂ Fetched (s.taken thread) (s.answers thread)

theorem uses_asking (h : s.point thread = .asking conn statement) : s.Uses thread conn := by
  rw [Uses, h]

theorem uses_storing (h : s.point thread = .storing conn) : s.Uses thread conn := by
  rw [Uses, h]

theorem Uses.congr {c : Nat} (hpoint : t.point u = s.point u) (h : t.Uses u c) : s.Uses u c := by
  rwa [Uses, hpoint] at h

theorem unsent_congr (hpoint : t.point u = s.point u) : t.unsent u = s.unsent u := by
  rw [unsent, unsent, hpoint]

theorem taken_congr (hpoint : t.point u = s.point u) (houtcomes : t.outcomes u = s.outcomes u) :
    t.taken u = s.taken u := by
  rw [taken, taken, hpoint, houtcomes]

/-- Two threads in executeQuery have two connections. -/
theorem Sound.apart (hs : Sound server database s) {thread' : Nat} (h : s.Uses thread conn)
    (h' : s.Uses thread' conn) : thread = thread' :=
  hs.pool.stored.exclusive.unique (hs.uses h) (hs.uses h')

theorem new_sound (poolSize : Int) (database : δ) :
    Sound server database (new poolSize database) where
  pool := PoolThreads.new_sound poolSize
  uses h := h.elim
  short h := by cases h
  stored h := by cases h
  clear _ := rfl
  serial := rfl
  own _ := rfl
  results _ := .nil

/-- A step in the pool of a thread that is not in executeQuery. -/
theorem Sound.withPool (hs : Sound server database s) {call : PoolCall} {pool : PoolThreads}
    (horderly : s.pool.Orderly call) (houtside : s.point call.thread = .outside)
    (h : s.pool.exec call = .ok pool) : Sound server database { s with pool := pool } := by
  have hpool : pool.Sound := by
    cases PoolThreads.exec_fine hs.pool horderly with
    | inl hfine =>
        obtain ⟨pool', hpool', hsound⟩ := hfine
        cases h.symm.trans hpool'
        exact hsound
    | inr hstop =>
        cases hstop with
        | inl hexits => cases h.symm.trans hexits
        | inr hlength => cases h.symm.trans hlength
  refine ⟨hpool, fun {thread conn} huses => ?_, hs.short, hs.stored, hs.clear, hs.serial, hs.own,
    hs.results⟩
  have hne : thread ≠ call.thread := fun heq => by
    rw [heq, Uses, houtside] at huses
    exact huses
  rw [PoolThreads.exec_held hne h]
  exact hs.uses huses

theorem Sound.ask (hs : Sound server database s) (houtside : s.point thread = .outside)
    (hheld : conn ∈ s.pool.held thread) (hshort : Connection.strlen statement < kQuerySize) :
    Sound server database (s.ask thread conn statement) := by
  have hself : (s.ask thread conn statement).point thread = .asking conn statement :=
    Function.update_self _ _ _
  have hother {u : Nat} (hu : u ≠ thread) : (s.ask thread conn statement).point u = s.point u :=
    Function.update_of_ne hu _ _
  refine ⟨hs.pool, fun {u c} huses => ?_, fun {u c st} hpoint => ?_, fun {u c} hpoint => ?_,
    fun {c} hclear => ?_, hs.serial, fun u => ?_, fun u => ?_⟩
  · by_cases hu : u = thread
    · rw [hu, Uses, hself] at huses
      rw [hu, ← huses]
      exact hheld
    · exact hs.uses (huses.congr (hother hu))
  · by_cases hu : u = thread
    · rw [hu, hself] at hpoint
      cases hpoint
      exact hshort
    · exact hs.short ((hother hu).symm.trans hpoint)
  · by_cases hu : u = thread
    · rw [hu, hself] at hpoint
      cases hpoint
    · exact hs.stored ((hother hu).symm.trans hpoint)
  · refine hs.clear fun u hpoint => ?_
    by_cases hu : u = thread
    · rw [hu, houtside] at hpoint
      cases hpoint
    · exact hclear u ((hother hu).trans hpoint)
  · have hown := hs.own u
    by_cases hu : u = thread
    · subst hu
      have hasked : (s.ask u conn statement).asked u = s.asked u ++ [statement] :=
        Function.update_self _ _ _
      rw [unsent, houtside, List.map_nil, List.append_nil] at hown
      rw [unsent, hself, hasked, List.map_append, ← hown]
      rfl
    · have hasked : (s.ask thread conn statement).asked u = s.asked u :=
        Function.update_of_ne hu _ _
      rw [unsent_congr (hother hu), hasked]
      exact hown
  · have hresults := hs.results u
    by_cases hu : u = thread
    · subst hu
      rw [taken, houtside] at hresults
      rw [taken, hself]
      exact hresults
    · rw [taken_congr (hother hu) rfl]
      exact hresults

theorem log_append_self (log : List Executed) (e : Executed) :
    (log ++ [e]).filter (fun x => x.thread = e.thread) =
      log.filter (fun x => x.thread = e.thread) ++ [e] := by
  simp only [List.filter_append, List.filter_singleton, decide_true, cond_true]

theorem log_append_of_ne (log : List Executed) {e : Executed} (hu : u ≠ e.thread) :
    (log ++ [e]).filter (fun x => x.thread = u) = log.filter (fun x => x.thread = u) := by
  simp only [List.filter_append, List.filter_singleton, decide_eq_false (Ne.symm hu), cond_false,
    List.append_nil]

/-- Nobody has left a result on the connection. -/
theorem Sound.realQuery_eq (hs : Sound server database s)
    (hpoint : s.point thread = .asking conn statement) (bytes : Bytes) :
    s.realQuery server thread conn bytes =
      { s with
        database := (server s.database bytes).2
        unread := Function.update s.unread conn (server s.database bytes).1.resultSet
        point := Function.update s.point thread (.storing conn)
        log := s.log ++ [⟨thread, bytes, (server s.database bytes).1⟩] } := by
  have hnone : s.unread conn = none := by
    refine hs.clear fun u hstoring => ?_
    have heq := hs.apart (uses_storing hstoring) (uses_asking hpoint)
    rw [heq, hpoint] at hstoring
    cases hstoring
  rw [QueryThreads.realQuery, hnone]

theorem Sound.realQuery (hs : Sound server database s)
    (hpoint : s.point thread = .asking conn statement) :
    Sound server database (s.realQuery server thread conn (Connection.text statement)) := by
  rw [hs.realQuery_eq hpoint]
  generalize hserver : server s.database (Connection.text statement) = answer
  have happly : server s.database (Connection.text statement) = (answer.1, answer.2) := hserver
  let t : QueryThreads δ := { s with
    database := answer.2
    unread := Function.update s.unread conn answer.1.resultSet
    point := Function.update s.point thread (.storing conn)
    log := s.log ++ [⟨thread, Connection.text statement, answer.1⟩] }
  change Sound server database t
  have hself : t.point thread = .storing conn := Function.update_self _ _ _
  have hother {u : Nat} (hu : u ≠ thread) : t.point u = s.point u := Function.update_of_ne hu _ _
  have houtcomes : t.outcomes thread = s.outcomes thread ++ [answer.1] := by
    rw [outcomes, outcomes, log_append_self s.log ⟨thread, _, _⟩, List.map_append]
    rfl
  have houtcomes' {u : Nat} (hu : u ≠ thread) : t.outcomes u = s.outcomes u := by
    rw [outcomes, outcomes, log_append_of_ne s.log hu]
  have huses {u c : Nat} (h : t.Uses u c) : s.Uses u c := by
    by_cases hu : u = thread
    · rw [hu, Uses, hself] at h
      rw [hu, ← h]
      exact uses_asking hpoint
    · exact h.congr (hother hu)
  refine ⟨hs.pool, fun h => hs.uses (huses h), fun {u c st} h => ?_, fun {u c} h => ?_,
    fun {c} hclear => ?_, ?_, fun u => ?_, fun u => ?_⟩
  · by_cases hu : u = thread
    · rw [hu, hself] at h
      cases h
    · exact hs.short ((hother hu).symm.trans h)
  · by_cases hu : u = thread
    · rw [hu, hself] at h
      cases h
      refine ⟨answer.1, ?_, Function.update_self _ _ _⟩
      rw [hu, houtcomes, List.getLast?_concat]
    · have hstoring := (hother hu).symm.trans h
      obtain ⟨o, hlast, hunread⟩ := hs.stored hstoring
      have hc : c ≠ conn := fun heq =>
        hu (hs.apart (uses_storing hstoring) (heq ▸ uses_asking hpoint))
      refine ⟨o, (houtcomes' hu).symm ▸ hlast, ?_⟩
      exact (Function.update_of_ne hc _ _).trans hunread
  · have hc : c ≠ conn := fun heq => hclear thread (heq ▸ hself)
    refine (Function.update_of_ne hc _ _).trans (hs.clear fun u h => ?_)
    by_cases hu : u = thread
    · rw [hu, hpoint] at h
      cases h
    · exact hclear u ((hother hu).trans h)
  · have hserial := hs.serial
    change replay server database ((s.log ++ [_]).map _) = ((s.log ++ [_]).map _, answer.2)
    rw [List.map_append, List.map_append, List.map_singleton, List.map_singleton, replay_append,
      hserial, happly]
  · have hown := hs.own u
    by_cases hu : u = thread
    · subst hu
      have hsent : t.sent u = s.sent u ++ [Connection.text statement] := by
        rw [sent, sent, log_append_self s.log ⟨u, _, _⟩, List.map_append]
        rfl
      rw [unsent, hpoint] at hown
      rw [unsent, hself, hsent, List.map_nil, List.append_nil]
      exact hown
    · have hsent : t.sent u = s.sent u := by
        rw [sent, sent, log_append_of_ne s.log hu]
      rw [unsent_congr (hother hu), hsent]
      exact hown
  · have hresults := hs.results u
    by_cases hu : u = thread
    · subst hu
      rw [taken, hpoint] at hresults
      rw [taken, hself, houtcomes, List.dropLast_concat]
      exact hresults
    · rw [taken_congr (hother hu) (houtcomes' hu)]
      exact hresults

theorem Sound.finish (hs : Sound server database s) (hpoint : s.point thread = .storing conn)
    {r : QueryResult} (h : Connection.fetchAll (s.unread conn) = .ok r) :
    Sound server database (s.finish thread conn r) := by
  have hself : (s.finish thread conn r).point thread = .outside := Function.update_self _ _ _
  have hother {u : Nat} (hu : u ≠ thread) : (s.finish thread conn r).point u = s.point u :=
    Function.update_of_ne hu _ _
  have huses {u c : Nat} (hu : u ≠ thread) (h : s.Uses u c) : c ≠ conn := fun heq =>
    hu (hs.apart h (heq ▸ uses_storing hpoint))
  refine ⟨hs.pool, fun {u c} h => ?_, fun {u c st} h => ?_, fun {u c} h => ?_,
    fun {c} hclear => ?_, hs.serial, fun u => ?_, fun u => ?_⟩
  · by_cases hu : u = thread
    · rw [hu, Uses, hself] at h
      exact h.elim
    · exact hs.uses (h.congr (hother hu))
  · by_cases hu : u = thread
    · rw [hu, hself] at h
      cases h
    · exact hs.short ((hother hu).symm.trans h)
  · by_cases hu : u = thread
    · rw [hu, hself] at h
      cases h
    · have hstoring := (hother hu).symm.trans h
      obtain ⟨o, hlast, hunread⟩ := hs.stored hstoring
      refine ⟨o, hlast, ?_⟩
      exact (Function.update_of_ne (huses hu (uses_storing hstoring)) _ _).trans hunread
  · by_cases hc : c = conn
    · rw [hc]
      exact Function.update_self _ _ _
    · refine (Function.update_of_ne hc _ _).trans (hs.clear fun u h => ?_)
      by_cases hu : u = thread
      · rw [hu, hpoint] at h
        cases h
        exact hc rfl
      · exact hclear u ((hother hu).trans h)
  · have hown := hs.own u
    by_cases hu : u = thread
    · subst hu
      rw [unsent, hpoint] at hown
      rw [unsent, hself]
      exact hown
    · rw [unsent_congr (hother hu)]
      exact hown
  · have hresults := hs.results u
    by_cases hu : u = thread
    · subst hu
      obtain ⟨o, hlast, hunread⟩ := hs.stored hpoint
      have hanswers : (s.finish u conn r).answers u = s.answers u ++ [r] :=
        Function.update_self _ _ _
      have hsplit : s.outcomes u = (s.outcomes u).dropLast ++ [o] :=
        (List.dropLast_append_getLast? o hlast).symm
      rw [taken, hpoint] at hresults
      rw [taken, hself, hanswers]
      change List.Forall₂ Fetched (s.outcomes u) _
      rw [hsplit]
      refine List.rel_append hresults (.cons ?_ .nil)
      rw [Fetched, ← hunread]
      exact h
    · have hanswers : (s.finish thread conn r).answers u = s.answers u :=
        Function.update_of_ne hu _ _
      rw [taken_congr (hother hu) rfl, hanswers]
      exact hresults

theorem exec_sound (hs : Sound server database s) {call : QueryCall} (horderly : s.Orderly call)
    (h : s.exec server call = .ok t) : Sound server database t := by
  cases call with
  | pool call =>
      simp only [exec] at h
      split at h
      · rename_i houtside
        split at h
        · cases h
        · rename_i pool hpool
          cases h
          exact hs.withPool horderly houtside hpool
      · cases h
        exact hs
  | executeQuery thread conn statement =>
      simp only [exec] at h
      split at h
      · rename_i hidle
        cases h
        exact hs.ask hidle.1 horderly.1 horderly.2
      · cases h
        exact hs
  | realQuery thread q =>
      cases hpoint : s.point thread with
      | asking conn statement =>
          have hbytes := (Connection.queryBytes_iff q statement).mpr (hs.short hpoint)
          simp only [exec, hpoint, hbytes] at h
          cases h
          exact hs.realQuery hpoint
      | outside | storing conn =>
          simp only [exec, hpoint] at h
          cases h
          exact hs
  | storeResult thread =>
      cases hpoint : s.point thread with
      | storing conn =>
          simp only [exec, hpoint] at h
          split at h
          · cases h
          · rename_i r hr
            cases h
            exact hs.finish hpoint hr
      | outside | asking conn statement =>
          simp only [exec, hpoint] at h
          cases h
          exact hs

/-- What a run shows: the server has executed the statements one after the other; those of
a thread are the ones it has called executeQuery with, but for the one that it is about to
send; and each call has returned the rows of its own statement. A call ends the process
only over what the server answered to it, getConnection when no connection is made. -/
structure Answered (server : δ → Bytes → QueryOutcome × δ) (database : δ) (s : QueryThreads δ) :
    Prop where
  serial : replay server database (s.log.map Executed.statement) =
    (s.log.map Executed.outcome, s.database)
  own : ∀ thread, s.sent thread ++ (s.unsent thread).map Connection.text =
    (s.asked thread).map Connection.text
  results : ∀ thread, List.Forall₂ Fetched (s.taken thread) (s.answers thread)
  stops : ∀ call stop, s.Orderly call → s.exec server call = .error stop →
    stop = .pool .exits ∨ stop = .pool .badArrayLength ∨
      ∃ thread o, call = .storeResult thread ∧ (s.outcomes thread).getLast? = some o ∧ ¬ o.Tabular

theorem Sound.stops (hs : Sound server database s) {call : QueryCall} {stop : QueryStop}
    (horderly : s.Orderly call) (h : s.exec server call = .error stop) :
    stop = .pool .exits ∨ stop = .pool .badArrayLength ∨
      ∃ thread o, call = .storeResult thread ∧ (s.outcomes thread).getLast? = some o ∧
        ¬ o.Tabular := by
  cases call with
  | pool call =>
      simp only [exec] at h
      split at h
      · split at h
        · rename_i stop' hstop
          cases h
          cases PoolThreads.exec_fine hs.pool horderly with
          | inl hfine =>
              obtain ⟨pool, hpool, -⟩ := hfine
              cases hstop.symm.trans hpool
          | inr hstops =>
              cases hstops with
              | inl hexits =>
                  cases hstop.symm.trans hexits
                  exact .inl rfl
              | inr hlength =>
                  cases hstop.symm.trans hlength
                  exact .inr (.inl rfl)
        · cases h
      · cases h
  | executeQuery thread conn statement =>
      simp only [exec] at h
      split at h
      · cases h
      · cases h
  | realQuery thread q =>
      cases hpoint : s.point thread with
      | asking conn statement =>
          have hbytes := (Connection.queryBytes_iff q statement).mpr (hs.short hpoint)
          simp only [exec, hpoint, hbytes] at h
          cases h
      | outside | storing conn =>
          simp only [exec, hpoint] at h
          cases h
  | storeResult thread =>
      cases hpoint : s.point thread with
      | storing conn =>
          obtain ⟨o, hlast, hunread⟩ := hs.stored hpoint
          refine .inr (.inr ⟨thread, o, rfl, hlast, fun htabular => ?_⟩)
          obtain ⟨r, hr⟩ := Connection.fetchAll_ok htabular
          simp only [exec, hpoint, hunread, hr] at h
          cases h
      | outside | asking conn statement =>
          simp only [exec, hpoint] at h
          cases h

theorem Sound.answered (hs : Sound server database s) : Answered server database s :=
  ⟨hs.serial, hs.own, hs.results, fun _ _ horderly h => hs.stops horderly h⟩

/-- However the threads interleave in the pool and between the calls of the client library,
every query is answered by its own result. -/
theorem queries_answered {poolSize : Int} {calls : List QueryCall}
    (h : Respects (exec server) Orderly (new poolSize database) calls) :
    Always (exec server) (Answered server database) (new poolSize database) calls :=
  always_of_respects (fun _ hs => hs.answered)
    (fun _ _ _ hs horderly ht => exec_sound hs horderly ht)
    (new_sound poolSize database) h

/-- Two threads with a connection each, the second one stores its result first; the server
counts the statements. -/
theorem queries_answered_crosswise :
    let server (n : Nat) (bytes : Bytes) : QueryOutcome × Nat :=
      (⟨0, some ⟨2, [[some bytes, some [UInt8.ofNat n]]], by simp⟩, fun h => absurd rfl h⟩, n + 1)
    let steps (thread n : Nat) : List QueryCall :=
      List.replicate n (.pool (.step thread true))
    let q : QueryArray := ⟨List.replicate 100 0, rfl⟩
    let calls : List QueryCall := .pool (.getConnection 1) :: .pool (.getConnection 2) ::
      steps 1 9 ++ steps 2 7 ++ [.executeQuery 1 0 [65], .executeQuery 2 1 [66], .realQuery 1 q,
        .realQuery 2 q, .storeResult 2, .storeResult 1]
    (∃ s, run (exec server) (new 2 7) calls = .ok s ∧ s.answers 1 = [⟨[[[65], [7]]]⟩] ∧
      s.answers 2 = [⟨[[[66], [8]]]⟩]) ∧
      Always (exec server) (Answered server 7) (new 2 7) calls := by
  intro server steps q calls
  have hgiven : resultHolds (fun s : QueryThreads Nat => s.answers 1 = [⟨[[[65], [7]]]⟩] ∧
      s.answers 2 = [⟨[[[66], [8]]]⟩]) (run (exec server) (new 2 7) calls) = true := by
    decide +kernel
  exact ⟨resultHolds_iff.mp hgiven,
    queries_answered (show Respects (exec server) Orderly (new 2 7) calls by decide +kernel)⟩

end QueryThreads

end TAlib
