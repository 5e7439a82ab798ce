import Mathlib.Data.List.Forall2
import TAlib.Common.TimeStamp
import TAlib.Foundation.Calendar
import TAlib.Logger.LogStream

/-!
The time at the head of a log line: TimeStamp::now of src/common/TimeStamp.cpp
and Logger::_formatTime of src/Logger/Logger.cpp. The text of the seconds is kept
in the thread between two calls. gmtime_r belongs to the C library and is a
parameter, of which only the fields that are printed are used.
-/

namespace TAlib

open Foundation

/-- What gettimeofday fills in. -/
structure Timeval where
  tv_sec : Int
  tv_usec : Nat
  usec_lt : tv_usec < 1000000
  deriving DecidableEq, Repr

/-- The fields of a struct tm that are printed. -/
structure Tm where
  tm_year : Int
  tm_mon : Int
  tm_mday : Int
  tm_hour : Int
  tm_min : Int
  tm_sec : Int
  deriving DecidableEq, Repr

/-- The fields of a time of the calendar. -/
def Tm.ofCivil (c : CivilTime) : Tm :=
  ⟨(c.date.year : Int) - 1900, c.date.month, c.date.day, c.time.hour, c.time.minute, c.time.second⟩

def TimeStamp.now (tv : Timeval) : Except Fault TimeStamp := do
  let seconds ← int64 (tv.tv_sec * kMicroSecondsPerSecond)
  int64 (seconds + tv.tv_usec)

/-- A number that printf fills up with blanks, or behind its sign with zeros. -/
def printfInt (zeros : Bool) (width : Nat) (v : Int) : Bytes :=
  let sign : Bytes := if v < 0 then [45] else []
  let fill := width - (sign.length + (decimalText v.natAbs).length)
  if zeros then sign ++ List.replicate fill 48 ++ decimalText v.natAbs
  else List.replicate fill 32 ++ sign ++ decimalText v.natAbs

/-- `"%4d-%02d-%02d %02d:%02d:%02d"` with the arguments of _formatTime. -/
def Tm.text (tm : Tm) : Bytes :=
  printfInt false 4 (tm.tm_year + 1900) ++ [45] ++ printfInt true 2 (tm.tm_mon + 1) ++ [45] ++
    printfInt true 2 tm.tm_mday ++ [32] ++ printfInt true 2 (tm.tm_hour + 8) ++ [58] ++
    printfInt true 2 tm.tm_min ++ [58] ++ printfInt true 2 tm.tm_sec

/-- The constructor of Fmt, after snprintf. -/
def Fmt.new (text : Bytes) : Except Fault Fmt :=
  if h : text.length < 32 then .ok ⟨text, h⟩ else .error (.assertion .fmtLength)

/-- The variables that every thread has for itself. -/
structure TimeCache where
  t_time : Bytes
  t_lastSecond : Int
  deriving DecidableEq, Repr

def TimeCache.new : TimeCache := ⟨[], 0⟩

section FormatTime

variable (gmtime_r : Int → Tm)

/-- The text of the seconds is made anew when they are others than last time. -/
def TimeCache.refresh (cache : TimeCache) (seconds : Int) : Except Fault TimeCache :=
  if seconds ≠ cache.t_lastSecond then do
    let text := (gmtime_r seconds).text
    require (text.length = 19) .formatTimeSeconds
    return ⟨text.take 63, seconds⟩
  else .ok cache

def formatTime (cache : TimeCache) (time : TimeStamp) (s : LogStream) :
    Except Fault (TimeCache × LogStream) := do
  let seconds := time.tdiv kMicroSecondsPerSecond
  let microseconds := time.tmod kMicroSecondsPerSecond
  let cache ← cache.refresh gmtime_r seconds
  let us ← Fmt.new ([46] ++ printfInt true 6 microseconds ++ [32])
  require (us.text.length = 8) .formatTimeMicroseconds
  let s ← s.shift (.cstr (some cache.t_time))
  let s ← s.shift (.cstr (some us.text))
  return (cache, s)

/-- A thread that constructs Loggers, and the times they wrote so far. -/
structure LogThread where
  cache : TimeCache
  times : List Bytes
  deriving DecidableEq, Repr

def LogThread.new : LogThread := ⟨.new, []⟩

/-- The start of the constructor of Logger. -/
def LogThread.construct (t : LogThread) (tv : Timeval) : Except Fault LogThread := do
  let time ← TimeStamp.now tv
  let (cache, s) ← formatTime gmtime_r t.cache time LogBuffer.new
  return ⟨cache, t.times ++ [s.data]⟩

end FormatTime

/-- The digits of a number with zeros in front. -/
def zeroPadded (width n : Nat) : Bytes :=
  List.replicate (width - (decimalText n).length) 48 ++ decimalText n

/-- A date with an hour, a minute and a second behind it. -/
def dateTimeText (d : Date) (hour minute second : Nat) : Bytes :=
  zeroPadded 4 d.year ++ [45] ++ zeroPadded 2 (d.month + 1) ++ [45] ++ zeroPadded 2 d.day ++ [32] ++
    (zeroPadded 2 hour ++ ([58] ++ zeroPadded 2 minute ++ [58] ++ zeroPadded 2 second))

/-- The six digits behind a time. -/
def microText (tv : Timeval) : Bytes := [46] ++ zeroPadded 6 tv.tv_usec ++ [32]

namespace Timeval

/-- The instants from one second after the epoch to the end of the year 9999. -/
def InYears (tv : Timeval) : Prop := 1 ≤ tv.tv_sec ∧ tv.tv_sec < 253402300800

instance (tv : Timeval) : Decidable tv.InYears := inferInstanceAs (Decidable (_ ∧ _))

/-- The hour of the day in UTC. -/
def utcHour (tv : Timeval) : Int := tv.tv_sec % 86400 / 3600

/-- The text is the time of this instant in a zone eight hours ahead of UTC. -/
def ShownBy (tv : Timeval) (text : Bytes) : Prop :=
  ∃ c : CivilTime, c.seconds = tv.tv_sec + 8 * 3600 ∧
    text = dateTimeText c.date c.time.hour c.time.minute c.time.second ++ microText tv

end Timeval

/-- gmtime_r gives the fields of the calendar in UTC. -/
def GivesUtc (gmtime_r : Int → Tm) : Prop :=
  ∀ sec, 0 ≤ sec → sec < 253402300800 →
    ∃ c : CivilTime, c.seconds = sec ∧ gmtime_r sec = .ofCivil c

/-- Every Logger returns from writing its time, and the time is right. -/
def TimesRight (gmtime_r : Int → Tm) (instants : List Timeval) : Prop :=
  ∃ t, run (LogThread.construct gmtime_r) .new instants = .ok t ∧
    List.Forall₂ Timeval.ShownBy instants t.times

section Digits

theorem decimalText_length_eq {n k : Nat} (hlow : 10 ^ k ≤ n) (hhigh : n < 10 ^ (k + 1)) :
    (decimalText n).length = k + 1 := by
  refine Nat.le_antisymm (decimalText_length_le (Nat.succ_pos k) hhigh) ?_
  rw [decimalText, bytesOf, List.length_map]
  cases k with
  | zero => exact Nat.length_toDigits_pos
  | succ k =>
      by_contra hlt
      have hle := (Nat.length_toDigits_le_iff (n := n) (by decide : 1 < 10) (Nat.succ_pos k)).mp
        (Nat.le_of_lt_succ (Nat.lt_of_not_le hlt))
      exact absurd hlow (Nat.not_le.mpr hle)

theorem zeroPadded_length {width n : Nat} (hwidth : 0 < width) (h : n < 10 ^ width) :
    (zeroPadded width n).length = width := by
  have hlen := decimalText_length_le hwidth h
  rw [zeroPadded, List.length_append, List.length_replicate]
  omega

theorem digitsValue_zeroPadded (width n : Nat) : digitsValue (zeroPadded width n) = n := by
  have hzeros : ∀ k, (List.replicate k 48).foldl
      (fun n (b : UInt8) => 10 * n + (b.toNat - 48)) 0 = 0 := by
    intro k
    induction k with
    | zero => rfl
    | succ k ih => exact ih
  rw [digitsValue, zeroPadded, List.foldl_append, hzeros]
  exact digitsValue_decimalText n

theorem zeroPadded_ne_zero {width n : Nat} {b : UInt8} (hb : b ∈ zeroPadded width n) : b ≠ 0 := by
  rcases List.mem_append.mp hb with hfill | hdigit
  · rw [List.eq_of_mem_replicate hfill]
    decide
  · rintro rfl
    exact not_mem_decimalText rfl hdigit

theorem printfInt_zeros (width n : Nat) : printfInt true width n = zeroPadded width n := by
  simp only [printfInt, if_neg (Int.not_lt.mpr (Int.natCast_nonneg n)), Int.natAbs_natCast, if_true,
    List.length_nil, Nat.zero_add, List.nil_append, zeroPadded]

/-- A number that is as long as the field needs no fill. -/
theorem printfInt_blanks {k n : Nat} (hlow : 10 ^ k ≤ n) (hhigh : n < 10 ^ (k + 1)) :
    printfInt false (k + 1) n = zeroPadded (k + 1) n := by
  simp only [printfInt, if_neg (Int.not_lt.mpr (Int.natCast_nonneg n)), Int.natAbs_natCast,
    Bool.false_eq_true, if_false, List.length_nil, Nat.zero_add, zeroPadded,
    decimalText_length_eq hlow hhigh, Nat.sub_self, List.replicate_zero, List.nil_append]

end Digits

section DateTime

variable {d d' : Date} {hour hour' minute minute' second second' : Nat}

theorem dateTimeText_ne_zero {b : UInt8} (hb : b ∈ dateTimeText d hour minute second) : b ≠ 0 := by
  simp only [dateTimeText, List.mem_append, List.mem_singleton] at hb
  rcases hb with (((((h | rfl) | h) | rfl) | h) | rfl) | h | ((rfl | h) | rfl) | h
  all_goals first | exact zeroPadded_ne_zero h | decide

theorem dateTimeText_length (hyear : d.year < 10000) (hhour : hour < 100) (hminute : minute < 60)
    (hsecond : second < 60) : (dateTimeText d hour minute second).length = 19 := by
  have hmonth := d.month_lt
  have hday : d.day < 32 := Nat.lt_succ_of_le (d.day_le.trans (daysIn_le _ _))
  have two {n : Nat} (h : n < 100) : (zeroPadded 2 n).length = 2 := zeroPadded_length (by decide) h
  simp only [dateTimeText, List.length_append, List.length_singleton, two hhour,
    @zeroPadded_length 4 _ (by decide) hyear, two (show d.month + 1 < 100 by omega),
    two (show d.day < 100 by omega), two (show minute < 100 by omega),
    two (show second < 100 by omega)]

/-- The hour can be read back from its place before the end. -/
theorem hour_eq_of_dateTimeText_eq {tail : Bytes} (hhour : hour < 100) (hhour' : hour' < 100)
    (hminute : minute < 60) (hminute' : minute' < 60) (hsecond : second < 60)
    (hsecond' : second' < 60)
    (h : dateTimeText d hour minute second ++ tail =
      dateTimeText d' hour' minute' second' ++ tail) :
    hour = hour' := by
  have two {n : Nat} (h : n < 100) : (zeroPadded 2 n).length = 2 := zeroPadded_length (by decide) h
  have hlen : (zeroPadded 2 hour ++
    ([58] ++ zeroPadded 2 minute ++ [58] ++ zeroPadded 2 second)).length =
      (zeroPadded 2 hour' ++
        ([58] ++ zeroPadded 2 minute' ++ [58] ++ zeroPadded 2 second')).length := by
    simp only [List.length_append, List.length_singleton, two hhour, two hhour',
      two (show minute < 100 by omega), two (show minute' < 100 by omega),
      two (show second < 100 by omega), two (show second' < 100 by omega)]
  have htime := (List.append_inj' (List.append_cancel_right h) hlen).2
  have hpadded := (List.append_inj htime (by rw [two hhour, two hhour'])).1
  rw [← digitsValue_zeroPadded 2 hour, hpadded, digitsValue_zeroPadded]

/-- _formatTime adds to the hour, and to nothing else. -/
theorem text_ofCivil {c : CivilTime} (hlow : 1970 ≤ c.date.year) (hhigh : c.date.year < 10000) :
    (Tm.ofCivil c).text = dateTimeText c.date (c.time.hour + 8) c.time.minute c.time.second := by
  have hyear : printfInt false 4 ((Tm.ofCivil c).tm_year + 1900) = zeroPadded 4 c.date.year := by
    rw [← printfInt_blanks (k := 3) (by omega) hhigh]
    congr 1
    exact Int.sub_add_cancel _ _
  have hmonth : printfInt true 2 ((Tm.ofCivil c).tm_mon + 1) = zeroPadded 2 (c.date.month + 1) :=
    printfInt_zeros 2 _
  have hhour : printfInt true 2 ((Tm.ofCivil c).tm_hour + 8) = zeroPadded 2 (c.time.hour + 8) :=
    printfInt_zeros 2 _
  have hday : printfInt true 2 (Tm.ofCivil c).tm_mday = zeroPadded 2 c.date.day :=
    printfInt_zeros 2 _
  have hminute : printfInt true 2 (Tm.ofCivil c).tm_min = zeroPadded 2 c.time.minute :=
    printfInt_zeros 2 _
  have hsecond : printfInt true 2 (Tm.ofCivil c).tm_sec = zeroPadded 2 c.time.second :=
    printfInt_zeros 2 _
  rw [Tm.text, hyear, hmonth, hhour, hday, hminute, hsecond, dateTimeText]
  simp only [List.append_assoc]

end DateTime

section Run

variable {gmtime_r : Int → Tm}

/-- The text that a thread keeps is that of its last second. -/
def TimeCache.Sound (gmtime_r : Int → Tm) (cache : TimeCache) : Prop :=
  cache.t_lastSecond ≠ 0 → cache.t_time = (gmtime_r cache.t_lastSecond).text

theorem TimeCache.refresh_ok {cache : TimeCache} (hcache : cache.Sound gmtime_r) {seconds : Int}
    (hne : seconds ≠ 0) (hlen : (gmtime_r seconds).text.length = 19) :
    cache.refresh gmtime_r seconds = .ok ⟨(gmtime_r seconds).text, seconds⟩ := by
  rw [TimeCache.refresh]
  split
  · have htake : (gmtime_r seconds).text.take 63 = (gmtime_r seconds).text :=
      List.take_of_length_le (by rw [hlen]; decide)
    simp only [require_of_true hlen, ok_bind, htake]
    rfl
  · rename_i hsame
    have hlast : seconds = cache.t_lastSecond := not_not.mp hsame
    have htime := hcache (hlast ▸ hne)
    rw [hlast, ← htime]

theorem shift_text (s : LogStream) {text : Bytes} (hroom : text.length < s.avail)
    (hnul : ∀ b ∈ text, b ≠ 0) :
    ∃ t, s.shift (.cstr (some text)) = .ok t ∧ t.data = s.data ++ text := by
  have htake : text.takeWhile (· ≠ 0) = text :=
    List.takeWhile_eq_self_iff.mpr fun b hb => decide_eq_true (hnul b hb)
  refine ⟨s.append text, ?_, LogBuffer.append_data hroom⟩
  rw [LogStream.shift, htake]

namespace Timeval

variable {tv : Timeval}

theorem micro_length (tv : Timeval) : (microText tv).length = 8 := by
  simp only [microText, List.length_append, List.length_singleton,
    @zeroPadded_length 6 _ (by decide) tv.usec_lt]

theorem micro_ne_zero {b : UInt8} (hb : b ∈ microText tv) : b ≠ 0 := by
  simp only [microText, List.mem_append, List.mem_singleton] at hb
  rcases hb with (rfl | hb) | rfl
  · decide
  · exact zeroPadded_ne_zero hb
  · decide

/-- The clock of these instants stays within an int64_t. -/
theorem now_ok (h : tv.InYears) :
    TimeStamp.now tv = .ok (tv.tv_sec * kMicroSecondsPerSecond + tv.tv_usec) := by
  have husec := tv.usec_lt
  obtain ⟨hlow, hhigh⟩ := h
  unfold TimeStamp.now kMicroSecondsPerSecond
  rw [int64_ok ⟨by omega, by omega⟩, ok_bind, int64_ok ⟨by omega, by omega⟩]

theorem seconds_eq (h : tv.InYears) :
    (tv.tv_sec * kMicroSecondsPerSecond + tv.tv_usec).tdiv kMicroSecondsPerSecond = tv.tv_sec := by
  have husec := tv.usec_lt
  obtain ⟨hlow, hhigh⟩ := h
  unfold kMicroSecondsPerSecond
  rw [Int.tdiv_eq_ediv_of_nonneg (by omega)]
  omega

theorem microseconds_eq (h : tv.InYears) :
    (tv.tv_sec * kMicroSecondsPerSecond + tv.tv_usec).tmod kMicroSecondsPerSecond = tv.tv_usec := by
  have husec := tv.usec_lt
  obtain ⟨hlow, hhigh⟩ := h
  unfold kMicroSecondsPerSecond
  rw [Int.tmod_eq_emod_of_nonneg (by omega)]
  omega

/-- What gmtime_r answers for an instant. -/
theorem civil (hutc : GivesUtc gmtime_r) (h : tv.InYears) :
    ∃ c : CivilTime, c.seconds = tv.tv_sec ∧ (c.time.hour : Int) = tv.utcHour ∧
      (gmtime_r tv.tv_sec).text =
        dateTimeText c.date (c.time.hour + 8) c.time.minute c.time.second ∧
      c.date.year < 10000 := by
  have hnonneg : 0 ≤ tv.tv_sec := Int.le_trans (by decide) h.1
  obtain ⟨c, hc, htm⟩ := hutc tv.tv_sec hnonneg h.2
  obtain ⟨hlow, hhigh⟩ := CivilTime.year_bounds (hc ▸ hnonneg) (hc ▸ h.2)
  refine ⟨c, hc, ?_, ?_, hhigh⟩
  · rw [← c.hour_eq, hc]
    rfl
  · rw [htm, text_ofCivil hlow hhigh]

end Timeval

/-- What a construction leaves: the text of this second, and one time more. -/
def LogThread.after (gmtime_r : Int → Tm) (t : LogThread) (tv : Timeval) : LogThread :=
  ⟨⟨(gmtime_r tv.tv_sec).text, tv.tv_sec⟩, t.times ++ [(gmtime_r tv.tv_sec).text ++ microText tv]⟩

theorem LogThread.construct_ok (hutc : GivesUtc gmtime_r) {t : LogThread} {tv : Timeval}
    (ht : t.cache.Sound gmtime_r) (htv : tv.InYears) :
    t.construct gmtime_r tv = .ok (t.after gmtime_r tv) := by
  obtain ⟨c, -, -, htext, hyear⟩ := Timeval.civil hutc htv
  have hlen : (gmtime_r tv.tv_sec).text.length = 19 := by
    have := c.time.hour_lt
    rw [htext, dateTimeText_length hyear (by omega) c.time.minute_lt c.time.second_lt]
  have hnul : ∀ b ∈ (gmtime_r tv.tv_sec).text, b ≠ 0 := by
    rw [htext]
    exact fun b hb => dateTimeText_ne_zero hb
  have hrefresh := TimeCache.refresh_ok ht (ne_of_gt (Int.lt_of_lt_of_le (by decide) htv.1)) hlen
  have hmicro : [46] ++ printfInt true 6 tv.tv_usec ++ [32] = microText tv := by
    rw [printfInt_zeros, microText]
  have hus : Fmt.new (microText tv) = .ok ⟨microText tv, by rw [tv.micro_length]; decide⟩ :=
    dif_pos _
  obtain ⟨s, hs, hdata⟩ := shift_text LogBuffer.new
    (show (gmtime_r tv.tv_sec).text.length < kSmallBuffer by rw [hlen]; decide) hnul
  have hroom : (microText tv).length < s.avail := by
    rw [LogBuffer.avail, LogBuffer.length, hdata, tv.micro_length, List.length_append, hlen]
    decide
  obtain ⟨s', hs', hdata'⟩ := shift_text s hroom fun b hb => Timeval.micro_ne_zero hb
  simp only [construct, Timeval.now_ok htv, ok_bind, formatTime, Timeval.seconds_eq htv,
    Timeval.microseconds_eq htv, hrefresh, hmicro, hus, require_of_true tv.micro_length, hs, hs']
  have htext : s'.data = (gmtime_r tv.tv_sec).text ++ microText tv := by
    have hnew : (LogBuffer.new : LogStream).data = [] := rfl
    rw [hdata', hdata, hnew, List.nil_append]
  rw [after, ← htext]
  rfl

theorem LogThread.after_sound (t : LogThread) (tv : Timeval) :
    (t.after gmtime_r tv).cache.Sound gmtime_r := fun _ => rfl

theorem LogThread.run_ok (hutc : GivesUtc gmtime_r) {instants : List Timeval} {t : LogThread}
    (ht : t.cache.Sound gmtime_r) (hin : ∀ tv ∈ instants, tv.InYears) :
    ∃ t', run (construct gmtime_r) t instants = .ok t' ∧
      t'.times = t.times ++ instants.map fun tv => (gmtime_r tv.tv_sec).text ++ microText tv := by
  induction instants generalizing t with
  | nil => exact ⟨t, rfl, (List.append_nil _).symm⟩
  | cons tv instants ih =>
      obtain ⟨t', hrun, htimes⟩ :=
        ih (t.after_sound tv) fun tv' h => hin tv' (List.mem_cons_of_mem _ h)
      refine ⟨t', run_cons_ok.mpr ⟨_, construct_ok hutc ht (hin tv List.mem_cons_self), hrun⟩, ?_⟩
      rw [htimes, after, List.map_cons, List.append_assoc]
      rfl

/-- The hour that is shown is eight more than that of the day in UTC. -/
theorem Timeval.shownBy_iff (hutc : GivesUtc gmtime_r) {tv : Timeval} (htv : tv.InYears) :
    tv.ShownBy ((gmtime_r tv.tv_sec).text ++ microText tv) ↔ tv.utcHour < 16 := by
  obtain ⟨c, hc, hhour, htext, -⟩ := Timeval.civil hutc htv
  have hlt := c.time.hour_lt
  rw [htext, ← hhour]
  constructor
  · rintro ⟨c', -, heq⟩
    have hsame := hour_eq_of_dateTimeText_eq (by omega) (Nat.lt_trans c'.time.hour_lt (by decide))
      c.time.minute_lt c'.time.minute_lt c.time.second_lt c'.time.second_lt heq
    have := c'.time.hour_lt
    omega
  · intro h
    refine ⟨⟨c.date, { c.time with hour := c.time.hour + 8, hour_lt := by omega }⟩, ?_, rfl⟩
    rw [← hc]
    simp only [CivilTime.seconds, TimeOfDay.number]
    omega

/-- What the earlier calls left in the thread has no part in it. -/
theorem timesRight_forall (hutc : GivesUtc gmtime_r) {instants : List Timeval}
    (hin : ∀ tv ∈ instants, tv.InYears) :
    TimesRight gmtime_r instants ↔
      ∀ tv ∈ instants, tv.ShownBy ((gmtime_r tv.tv_sec).text ++ microText tv) := by
  obtain ⟨t, hrun, htimes⟩ := LogThread.run_ok hutc
    (show LogThread.new.cache.Sound gmtime_r from fun h => absurd rfl h) hin
  have hiff : TimesRight gmtime_r instants ↔ List.Forall₂ Timeval.ShownBy instants t.times := by
    constructor
    · rintro ⟨t', hrun', hright⟩
      cases hrun.symm.trans hrun'
      exact hright
    · exact fun hright => ⟨t, hrun, hright⟩
  rw [hiff, htimes]
  change List.Forall₂ _ instants (List.map _ instants) ↔ _
  rw [List.forall₂_map_right_iff, List.forall₂_same]

/-- The times of a thread are right exactly when none of them is in the last eight
hours of a day in UTC. -/
theorem timesRight_iff (hutc : GivesUtc gmtime_r) {instants : List Timeval}
    (hin : ∀ tv ∈ instants, tv.InYears) :
    TimesRight gmtime_r instants ↔ ∀ tv ∈ instants, tv.utcHour < 16 :=
  (timesRight_forall hutc hin).trans
    (forall₂_congr fun tv htv => Timeval.shownBy_iff hutc (hin tv htv))

end Run

/-- gmtime_r by the calendar. -/
def utc (sec : Int) : Tm := .ofCivil (.ofSeconds sec.toNat)

theorem utc_givesUtc : GivesUtc utc := by
  intro sec hsec _
  exact ⟨.ofSeconds sec.toNat, by rw [CivilTime.seconds_ofSeconds, Int.toNat_of_nonneg hsec], rfl⟩

/-- One second before the last eight hours of a day, and then a time before it. -/
theorem timesRight_backwards :
    TimesRight utc [⟨57599, 999999, by decide⟩, ⟨1, 0, by decide⟩] :=
  (timesRight_iff utc_givesUtc (by decide)).mpr (by decide)

/-- Midnight in the zone is shown as the hour 24 of the day before. -/
theorem not_timesRight_at_midnight :
    let instants : List Timeval := [⟨57600, 0, by decide⟩]
    (∃ t, run (LogThread.construct utc) .new instants = .ok t ∧
      t.times = [bytesOf "1970-01-01 24:00:00.000000 ".toList]) ∧ ¬ TimesRight utc instants := by
  intro instants
  have hin : ∀ tv ∈ instants, tv.InYears := by decide
  obtain ⟨t, hrun, htimes⟩ := LogThread.run_ok utc_givesUtc
    (show LogThread.new.cache.Sound utc from fun h => absurd rfl h) hin
  refine ⟨⟨t, hrun, htimes.trans (by decide +kernel)⟩, fun hright => ?_⟩
  have hshown := (timesRight_forall utc_givesUtc hin).mp hright _ List.mem_cons_self
  exact absurd ((Timeval.shownBy_iff utc_givesUtc (hin _ List.mem_cons_self)).mp hshown) (by decide)

end TAlib
