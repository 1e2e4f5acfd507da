import Libio.Core.Numbers

/-! # Time

The static part of `core/time.hh`: the date of a reply. `Tm` is what `gmtime_r` fills in. -/

namespace Libio

/-- `struct tm`, as `gmtime_r` fills it, with the year counted from 0. -/
structure Tm where
  sec : ℕ
  min : ℕ
  hour : ℕ
  mday : ℕ
  mon : Fin 12
  year : ℤ
  wday : Fin 7
  deriving DecidableEq, Repr

/-- Midnight at the start of 2024. -/
def newYear : Tm := ⟨0, 0, 0, 1, 0, 2024, 1⟩

/-- `%a` in the C locale. -/
def weekday (d : Fin 7) : Str :=
  match d with
  | 0 => str "Sun"
  | 1 => str "Mon"
  | 2 => str "Tue"
  | 3 => str "Wed"
  | 4 => str "Thu"
  | 5 => str "Fri"
  | 6 => str "Sat"

/-- `%b` in the C locale. -/
def month (m : Fin 12) : Str :=
  match m with
  | 0 => str "Jan"
  | 1 => str "Feb"
  | 2 => str "Mar"
  | 3 => str "Apr"
  | 4 => str "May"
  | 5 => str "Jun"
  | 6 => str "Jul"
  | 7 => str "Aug"
  | 8 => str "Sep"
  | 9 => str "Oct"
  | 10 => str "Nov"
  | 11 => str "Dec"

/-- `%d`, `%H`, `%M` and `%S`: two digits at least. -/
def twoDigits (n : ℕ) : Str := if n < 10 then str "0" ++ render 10 n else render 10 n

/-- `strftime` with the format `"%a, %d %b %Y %H:%M:%S GMT"`. -/
def strftime (t : Tm) : Str :=
  weekday t.wday ++ str ", " ++ twoDigits t.mday ++ str " " ++ month t.mon ++ str " " ++
    stdToString t.year ++ str " " ++ twoDigits t.hour ++ str ":" ++ twoDigits t.min ++ str ":" ++
    twoDigits t.sec ++ str " GMT"

/-- `get_date()`: a date that does not fit the array of 50 bytes is reported as empty. -/
def getDate (t : Tm) : Str := if (strftime t).length < 50 then strftime t else []

/-- Two digits have no line end and no NUL. -/
theorem plain_twoDigits (n : ℕ) : Plain (twoDigits n) := by
  unfold twoDigits
  split
  · exact plain_append.mpr ⟨by decide, plain_render (by decide) (by decide)⟩
  · exact plain_render (by decide) (by decide)

/-- Nor has a number. -/
theorem plain_stdToString (n : ℤ) : Plain (stdToString n) := by
  unfold stdToString
  split
  · exact plain_append.mpr ⟨by decide, plain_render (by decide) (by decide)⟩
  · exact plain_render (by decide) (by decide)

/-- A date has no line end in it. -/
theorem plain_getDate (t : Tm) : Plain (getDate t) := by
  have hday : ∀ d, Plain (weekday d) := by decide
  have hmonth : ∀ m, Plain (month m) := by decide
  unfold getDate
  split
  · simp only [strftime, plain_append, hday, hmonth, plain_twoDigits, plain_stdToString]
    decide
  · exact plain_nil

/-- A date has no white space at its ends. -/
theorem noEdgeSpace_getDate (t : Tm) : NoEdgeSpace (getDate t) := by
  have hday : ∀ d, weekday d ≠ [] ∧ NoEdgeSpace (weekday d) := by decide
  unfold getDate
  split
  · have hsplit : strftime t = weekday t.wday ++ (str ", " ++ twoDigits t.mday ++ str " " ++
        month t.mon ++ str " " ++ stdToString t.year ++ str " " ++ twoDigits t.hour ++ str ":" ++
        twoDigits t.min ++ str ":" ++ twoDigits t.sec ++ str " ") ++ str "GMT" := by
      simp [strftime, str]
    rw [hsplit]
    exact noEdgeSpace_between (hday t.wday) (by decide) _
  · decide

end Libio
