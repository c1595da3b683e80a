import TopicClient.Url.Address

/-!
# Dates of cookies

A cookie names the moment at which it expires in one of the forms
`Sun, 06 Nov 1994 08:49:37 GMT`, `Sunday, 06-Nov-94 08:49:37 GMT` and `Sun Nov  6 08:49:37 1994`.
-/

namespace TopicClient.Cookie.Date

def weekdays : List String :=
  ["Monday", "Tuesday", "Wednesday", "Thursday", "Friday", "Saturday", "Sunday"]

def months : List String :=
  ["Jan", "Feb", "Mar", "Apr", "May", "Jun", "Jul", "Aug", "Sep", "Oct", "Nov", "Dec"]

def isLeap (year : Nat) : Bool := year % 4 = 0 && (year % 100 ≠ 0 || year % 400 = 0)

def monthLength (year month : Nat) : Nat :=
  if month = 2 then if isLeap year then 29 else 28
  else if [4, 6, 9, 11].contains month then 30 else 31

/-- The days from the first of January of the year 1970. -/
def dayNumber (year month day : Nat) : Int :=
  let leapDays (y : Nat) : Int := y / 4 - y / 100 + y / 400
  let years := 365 * ((year : Int) - 1970) + (leapDays (year - 1) - leapDays 1969)
  let inYear := (List.range (month - 1)).foldl (fun n m => n + monthLength year (m + 1)) 0
  years + inYear + day - 1

def number? (cs : List Char) : Option Nat :=
  if cs.isEmpty then none else Url.digitsValue? 10 cs

def pair? (cs : List Char) : Option Nat := if cs.length = 2 then number? cs else none

def month? (cs : List Char) : Option Nat :=
  (months.findIdx? fun m => m.toList = cs).map (· + 1)

/-- Years of one or two digits are near the year 2000. -/
def fullYear (year : Nat) : Nat :=
  if year < 69 then 2000 + year else if year < 100 then 1900 + year else year

def time? (cs : List Char) : Option Nat := do
  match Text.splitOn (· = ':') cs with
  | [h, m, s] =>
    let h ← pair? h
    let m ← pair? m
    let s ← pair? s
    if h < 24 ∧ m < 60 ∧ s < 60 then return 3600 * h + 60 * m + s else none
  | _ => none

def moment? (year month day time : Nat) : Option Int :=
  let year := fullYear year
  if 0 < day ∧ day ≤ monthLength year month then
    some (86400 * dayNumber year month day + time)
  else none

def isShortWeekday (cs : List Char) : Bool := weekdays.any fun w => w.toList.take 3 = cs

def isWeekday (cs : List Char) : Bool := weekdays.any fun w => w.toList = cs

def parse? (cs : List Char) : Option Int := do
  match Text.splitOn (· = ' ') cs with
  | [w, d, mon, y, t, ['G', 'M', 'T']] =>
    if w.getLast? = some ',' ∧ isShortWeekday w.dropLast then
      moment? (← number? y) (← month? mon) (← pair? d) (← time? t)
    else none
  | [w, date, t, ['G', 'M', 'T']] =>
    match Text.splitOn (· = '-') date with
    | [d, mon, y] =>
      if w.getLast? = some ',' ∧
          (isShortWeekday w.dropLast ∨ isWeekday w.dropLast ∧ y.length = 2) then
        moment? (← number? y) (← month? mon) (← pair? d) (← time? t)
      else none
    | _ => none
  | [w, mon, [], d, t, y] =>
    if isShortWeekday w ∧ d.length = 1 then
      moment? (← number? y) (← month? mon) (← number? d) (← time? t)
    else none
  | [w, mon, d, t, y] =>
    if isShortWeekday w then
      moment? (← number? y) (← month? mon) (← pair? d) (← time? t)
    else none
  | _ => none

end TopicClient.Cookie.Date
