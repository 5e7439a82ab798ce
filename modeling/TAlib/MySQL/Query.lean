import Mathlib.Data.List.Forall2
import TAlib.Common.BufferRefinement
import TAlib.Common.CString

/-!
Connection::executeQuery of src/MySQL/pool.cpp. The client library is not part of
the repository: a server is what mysql_real_query and mysql_store_result return
for the bytes they were given. A result set is read into memory as a whole, so
that mysql_fetch_row gives its rows one after the other and then NULL.
-/

namespace TAlib

open Foundation

/-- A value of a column: NULL, or bytes, with a NUL behind them in memory. -/
abbrev Column := Option Bytes

/-- What mysql_store_result returns when it is not NULL. -/
structure ResultSet where
  num_fields : Nat
  rows : List (List Column)
  width : ∀ row ∈ rows, row.length = num_fields

/-- What the library returns for a query. There is no result set after a query that
failed; one that succeeded may have none either. -/
structure QueryOutcome where
  status : Int
  resultSet : Option ResultSet
  failed : status ≠ 0 → resultSet = none

/-- The rows that there are for the caller. -/
def QueryOutcome.rows (o : QueryOutcome) : List (List Column) :=
  match o.resultSet with
  | some resultSet => resultSet.rows
  | none => []

/-- The size of the array that the statement is copied to. -/
def kQuerySize : Nat := 100

/-- The array before anything is written to it. -/
structure QueryArray where
  bytes : Bytes
  size : bytes.length = kQuerySize

structure QueryResult where
  string_table : List (List Bytes)
  deriving DecidableEq, Repr

def QueryResult.addRow (r : QueryResult) (row : List Bytes) : QueryResult :=
  ⟨r.string_table ++ [row]⟩

namespace Connection

/-- `strlen(query)` of a string that c_str() returned. -/
def strlen (statement : Bytes) : Nat := (statement.takeWhile (· ≠ 0)).length

/-- `strncpy(q, query, len)`, where query is at least that long. -/
def strncpy (q : Bytes) (statement : Bytes) (len : Nat) : Except Fault Bytes :=
  overwrite q 0 (statement.take len)

/-- The string that push_back makes of row[i]. -/
def columnString : Column → Except Fault Bytes
  | some value => .ok (value.takeWhile (· ≠ 0))
  | none => .error .nullPointer

/-- The loop over the fields, from one column on with this many left. -/
def stringRow : List Column → Nat → Except Fault (List Bytes)
  | _, 0 => .ok []
  | [], _ + 1 => .error .outOfBounds
  | column :: row, fields + 1 => do
    let string ← columnString column
    let rest ← stringRow row fields
    return string :: rest

/-- A round of the loop over the rows. -/
def fetchRow (fields : Nat) (r : QueryResult) (row : List Column) : Except Fault QueryResult := do
  let string_row ← stringRow row fields
  return r.addRow string_row

/-- The bytes that mysql_real_query is given. The length is an unsigned int. -/
def queryBytes (q : QueryArray) (statement : Bytes) : Except Fault Bytes := do
  let len := strlen statement % 2 ^ 32
  let q ← strncpy q.bytes statement len
  let q ← overwrite q len [0]
  return slice q 0 len

/-- What is fetched from the result set. NULL is no argument of mysql_fetch_row. -/
def fetchAll : Option ResultSet → Except Fault QueryResult
  | none => .error .nullPointer
  | some resultSet => run (fetchRow resultSet.num_fields) ⟨[]⟩ resultSet.rows

/-- The bytes that were sent, and the table that is returned. A status other than
zero is printed, and nothing else. -/
def executeQuery (q : QueryArray) (server : Bytes → QueryOutcome) (statement : Bytes) :
    Except Fault (Bytes × QueryResult) := do
  let sent ← queryBytes q statement
  let queryResult ← fetchAll (server sent).resultSet
  return (sent, queryResult)

/-- A string shows a value of its own bytes; nothing is said about one for NULL. -/
def Shows (column : Column) (string : Bytes) : Prop := ∀ value, column = some value → string = value

/-- A value that a string of C can be. -/
def Plain (column : Column) : Prop := ∃ value, column = some value ∧ 0 ∉ value

/-- The statement goes out up to its first NUL, nothing faults, and the table holds the
rows of the result in order. -/
def HandlesQuery (q : QueryArray) (server : Bytes → QueryOutcome) (statement : Bytes) : Prop :=
  ∃ r, executeQuery q server statement = .ok (statement.takeWhile (· ≠ 0), r) ∧
    List.Forall₂ (List.Forall₂ Shows) (server (statement.takeWhile (· ≠ 0))).rows r.string_table

/-- What the server has to answer: a result set without NULL and without NUL bytes. -/
def PlainAnswer (o : QueryOutcome) : Prop :=
  ∃ resultSet, o.resultSet = some resultSet ∧ ∀ row ∈ resultSet.rows, ∀ column ∈ row, Plain column

theorem columnString_shows {column : Column} :
    (∃ string, columnString column = .ok string ∧ Shows column string) ↔ Plain column := by
  constructor
  · rintro ⟨string, hstring, hshows⟩
    cases column with
    | none => cases hstring
    | some value =>
        cases hstring
        refine ⟨value, rfl, fun hnul => ?_⟩
        have hall := List.takeWhile_eq_self_iff.mp (hshows value rfl) 0 hnul
        cases hall
  · rintro ⟨value, rfl, hnul⟩
    refine ⟨_, rfl, fun value' heq => ?_⟩
    cases heq
    exact List.takeWhile_eq_self_iff.mpr fun b hb => decide_eq_true fun heq => hnul (heq ▸ hb)

/-- The loop over the fields, by induction on the columns that are left. -/
theorem stringRow_shows (row : List Column) :
    (∃ strings, stringRow row row.length = .ok strings ∧ List.Forall₂ Shows row strings) ↔
      ∀ column ∈ row, Plain column := by
  induction row with
  | nil =>
      refine iff_of_true ⟨[], rfl, .nil⟩ fun column hmem => ?_
      cases hmem
  | cons column row ih =>
      rw [List.forall_mem_cons, ← columnString_shows, ← ih]
      constructor
      · rintro ⟨strings, hstrings, hshows⟩
        rw [List.length_cons, stringRow] at hstrings
        obtain ⟨string, hstring, h⟩ := bind_eq_ok.mp hstrings
        obtain ⟨rest, hrest, h⟩ := bind_eq_ok.mp h
        cases h
        obtain ⟨hfirst, hothers⟩ := List.forall₂_cons.mp hshows
        exact ⟨⟨string, hstring, hfirst⟩, rest, hrest, hothers⟩
      · rintro ⟨⟨string, hstring, hfirst⟩, rest, hrest, hothers⟩
        refine ⟨string :: rest, ?_, .cons hfirst hothers⟩
        rw [List.length_cons, stringRow, hstring, ok_bind, hrest]
        rfl

theorem run_extends {fields : Nat} {rows : List (List Column)} {r r' : QueryResult}
    (h : run (fetchRow fields) r rows = .ok r') :
    ∃ new, r'.string_table = r.string_table ++ new := by
  induction rows generalizing r with
  | nil =>
      cases h
      exact ⟨[], (List.append_nil _).symm⟩
  | cons row rows ih =>
      obtain ⟨m, hm, hrun⟩ := run_cons_ok.mp h
      obtain ⟨strings, _, hrow⟩ := bind_eq_ok.mp hm
      cases hrow
      obtain ⟨new, hnew⟩ := ih hrun
      exact ⟨strings :: new, by rw [hnew, QueryResult.addRow, List.append_assoc]; rfl⟩

/-- The loop over the rows, by induction on the rows that are left. -/
theorem run_fetchRow {fields : Nat} {rows : List (List Column)} (r : QueryResult)
    (hwidth : ∀ row ∈ rows, row.length = fields) :
    (∃ r' new, run (fetchRow fields) r rows = .ok r' ∧ r'.string_table = r.string_table ++ new ∧
      List.Forall₂ (List.Forall₂ Shows) rows new) ↔ ∀ row ∈ rows, ∀ column ∈ row, Plain column := by
  induction rows generalizing r with
  | nil =>
      refine iff_of_true ⟨r, [], rfl, (List.append_nil _).symm, .nil⟩ fun row hmem => ?_
      cases hmem
  | cons row rows ih =>
      obtain ⟨hlen, hwidth⟩ := List.forall_mem_cons.mp hwidth
      rw [List.forall_mem_cons, ← stringRow_shows, hlen]
      constructor
      · rintro ⟨r', new, hrun, htable, hshows⟩
        obtain ⟨m, hm, hrun⟩ := run_cons_ok.mp hrun
        obtain ⟨strings, hstrings, h⟩ := bind_eq_ok.mp hm
        cases h
        obtain ⟨strings', new', hfirst, hothers, rfl⟩ := List.forall₂_cons_left_iff.mp hshows
        obtain ⟨new, hnew⟩ := run_extends hrun
        rw [htable, QueryResult.addRow, List.append_assoc] at hnew
        cases List.append_cancel_left hnew
        refine ⟨⟨strings, hstrings, hfirst⟩,
          (ih (r.addRow strings) hwidth).mp ⟨r', new, hrun, ?_, hothers⟩⟩
        rw [htable, QueryResult.addRow, List.append_assoc]
        rfl
      · rintro ⟨⟨strings, hstrings, hfirst⟩, hrest⟩
        obtain ⟨r', new, hrun, htable, hothers⟩ := (ih (r.addRow strings) hwidth).mpr hrest
        refine ⟨r', strings :: new, run_cons_ok.mpr ⟨_, ?_, hrun⟩, ?_, .cons hfirst hothers⟩
        · rw [fetchRow, hstrings]
          rfl
        · rw [htable, QueryResult.addRow, List.append_assoc]
          rfl

theorem fetchAll_shows {o : QueryOutcome} :
    (∃ r, fetchAll o.resultSet = .ok r ∧ List.Forall₂ (List.Forall₂ Shows) o.rows r.string_table) ↔
      PlainAnswer o := by
  rw [PlainAnswer, QueryOutcome.rows]
  cases o.resultSet with
  | none =>
      refine iff_of_false ?_ ?_
      · rintro ⟨r, hr, -⟩
        cases hr
      · rintro ⟨resultSet, h, -⟩
        cases h
  | some resultSet =>
      have hrows := run_fetchRow ⟨[]⟩ resultSet.width
      simp only [List.nil_append] at hrows
      constructor
      · rintro ⟨r, hr, hshows⟩
        exact ⟨resultSet, rfl, hrows.mp ⟨r, r.string_table, hr, rfl, hshows⟩⟩
      · rintro ⟨resultSet', heq, hplain⟩
        cases heq
        obtain ⟨r, new, hr, htable, hshows⟩ := hrows.mpr hplain
        exact ⟨r, hr, htable ▸ hshows⟩

/-- The array takes the statement with its NUL, and only then is all of it sent. -/
theorem queryBytes_iff (q : QueryArray) (statement : Bytes) :
    queryBytes q statement = .ok (statement.takeWhile (· ≠ 0)) ↔ strlen statement < kQuerySize := by
  have hsent {len : Nat} {q₁ q₂ : Bytes} (hlen : len ≤ statement.length)
      (h₁ : strncpy q.bytes statement len = .ok q₁) (h₂ : overwrite q₁ len [0] = .ok q₂) :
      len < kQuerySize ∧ slice q₂ 0 len = statement.take len := by
    obtain ⟨-, hsize₁, htext, -⟩ := overwrite_ok h₁
    obtain ⟨hle, -, -, hold⟩ := overwrite_ok h₂
    rw [hsize₁, q.size] at hle
    rw [List.length_take_of_le hlen, Nat.zero_add] at htext
    exact ⟨hle, (hold 0 len (Nat.le_refl _)).trans htext⟩
  have hprefix : statement.takeWhile (· ≠ 0) <+: statement := List.takeWhile_prefix _
  have hshort : strlen statement ≤ statement.length := hprefix.length_le
  have hmod : strlen statement % 2 ^ 32 ≤ strlen statement := Nat.mod_le _ _
  have htake : statement.take (strlen statement) = statement.takeWhile (· ≠ 0) :=
    (List.prefix_iff_eq_take.mp hprefix).symm
  constructor
  · intro h
    simp only [queryBytes, bind_eq_ok] at h
    obtain ⟨q₁, h₁, q₂, h₂, h⟩ := h
    obtain ⟨hlt, hslice⟩ := hsent (hmod.trans hshort) h₁ h₂
    have hlen := congrArg List.length (hslice.symm.trans (Except.ok.inj h))
    rw [List.length_take_of_le (hmod.trans hshort)] at hlen
    rw [show strlen statement % 2 ^ 32 = strlen statement from hlen] at hlt
    exact hlt
  · intro h
    have hsize : kQuerySize < 2 ^ 32 := by decide
    have hlen : strlen statement % 2 ^ 32 = strlen statement := Nat.mod_eq_of_lt (h.trans hsize)
    have hsource : (statement.take (strlen statement)).length = strlen statement :=
      List.length_take_of_le hshort
    obtain ⟨q₁, h₁⟩ := overwrite_of_le q.bytes 0 (statement.take (strlen statement))
      (by rw [hsource, Nat.zero_add, q.size]; exact Nat.le_of_lt h)
    have hsize₁ := (overwrite_ok h₁).2.1.trans q.size
    obtain ⟨q₂, h₂⟩ := overwrite_of_le q₁ (strlen statement) [0] (by rw [hsize₁]; exact h)
    obtain ⟨-, hslice⟩ := hsent hshort h₁ h₂
    simp only [queryBytes, hlen, strncpy, h₁, h₂, ok_bind]
    rw [hslice, htake]
    rfl

/-- A query is handled exactly when the statement is shorter than the array and the server
answers with a result set without NULL and without NUL bytes. -/
theorem handlesQuery_iff (q : QueryArray) (server : Bytes → QueryOutcome) (statement : Bytes) :
    HandlesQuery q server statement ↔
      strlen statement < kQuerySize ∧ PlainAnswer (server (statement.takeWhile (· ≠ 0))) := by
  rw [← queryBytes_iff q, ← fetchAll_shows]
  constructor
  · rintro ⟨r, h, hshows⟩
    obtain ⟨sent, hsent, h⟩ := bind_eq_ok.mp h
    obtain ⟨r', hr, h⟩ := bind_eq_ok.mp h
    cases h
    exact ⟨hsent, r, hr, hshows⟩
  · rintro ⟨hsent, r, hr, hshows⟩
    refine ⟨r, ?_, hshows⟩
    rw [executeQuery, hsent, ok_bind, hr]
    rfl

theorem not_handlesQuery_of_error {q : QueryArray} {server : Bytes → QueryOutcome}
    {statement : Bytes}
    {e : Fault} (h : executeQuery q server statement = .error e) :
    ¬ HandlesQuery q server statement := by
  rintro ⟨r, hr, -⟩
  cases h.symm.trans hr

/-- A statement of a hundred bytes writes behind the array, an insertion is followed by a
fetch from NULL, and a NULL in a column by a string from NULL. -/
theorem not_handlesQuery_three_ways :
    let q : QueryArray := ⟨List.replicate 100 0, rfl⟩
    let empty : Bytes → QueryOutcome := fun _ =>
      ⟨0, some ⟨1, [], fun _ h => absurd h List.not_mem_nil⟩, fun h => absurd rfl h⟩
    let done : Bytes → QueryOutcome := fun _ => ⟨0, none, fun _ => rfl⟩
    let null : Bytes → QueryOutcome := fun _ =>
      ⟨0, some ⟨1, [[none]], by decide⟩, fun h => absurd rfl h⟩
    let insert : Bytes := bytesOf "insert into q values (1);".toList
    let select : Bytes := bytesOf "select * from q;".toList
    (executeQuery q empty (List.replicate 100 120) = .error .outOfBounds ∧
      ¬ HandlesQuery q empty (List.replicate 100 120)) ∧
    (executeQuery q done insert = .error .nullPointer ∧ ¬ HandlesQuery q done insert) ∧
    (executeQuery q null select = .error .nullPointer ∧ ¬ HandlesQuery q null select) := by
  intro q empty done null insert select
  have hlong : executeQuery q empty (List.replicate 100 120) = .error .outOfBounds := by
    decide +kernel
  have hinsert : executeQuery q done insert = .error .nullPointer := by decide +kernel
  have hselect : executeQuery q null select = .error .nullPointer := by decide +kernel
  exact ⟨⟨hlong, not_handlesQuery_of_error hlong⟩, ⟨hinsert, not_handlesQuery_of_error hinsert⟩,
    hselect, not_handlesQuery_of_error hselect⟩

end Connection
end TAlib
