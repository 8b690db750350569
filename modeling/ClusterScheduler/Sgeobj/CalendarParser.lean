import ClusterScheduler.Sgeobj.Calendars
import Mathlib.Data.Char

/-!
# The calendar parser

`disabled_year_list()` and `disabled_week_list()`, with the scanner they read tokens from.

* `Scanner.scan` looks at the next token; a parser that takes it goes on from the scanner
  `scan` returns.
* A parser returns what it read and the scanner it stopped at, or the message the
  specification is refused with.
* The ranges read are put in order by `splitDaytimeRange`, `normalizeRangeList`,
  `splitWdayRange`, `joinWdayRange` and `extendWdayRange`.
-/

namespace ClusterScheduler.Sgeobj.Calendar

open Foundation.CivilTime

/-! ## Tokens -/

/-- The tokens a calendar specification is made of. -/
inductive Token where
  | dot
  | colon
  | equalSign
  | minus
  | comma
  | space
  | number (n : ℤ)
  | string (s : List Char)
  | noToken
  | errToken
deriving DecidableEq, Repr

/-- The messages a specification is refused with, under the names of the source. -/
inductive ParseMessage where
  | tokenUnrecognizedString (store : List Char)
  | unrecognizedTokenAtEnd
  | gotEqualWithoutDaytimeRangeOrState
  | firstYeardayMustBeBeforeSecond
  | missingPointAfterDay
  | missingPointAfterMonth
  | outsideOfRange (store : List Char) (min max : ℤ) (name : List Char)
  | isNotA (store name : List Char)
  | missingDashInDaytimeRange
  | rangeBeginIsEqualToEnd
  | daytimesBeyond24hNotAllowed
  | isNotAStateSpecifier (store : List Char)
  | foundUselessWeekdayRange
  | expectedStringForWeekday
  | isNotAWeekday (store : List Char)
  | noMessage
deriving DecidableEq, Repr

/-- What is left to read, and the text of the token read last. -/
structure Scanner where
  rest : List Char
  store : List Char
deriving DecidableEq, Repr

inductive TokenSet where
  | year
  | week
deriving DecidableEq, Repr

def intMax : ℕ := 2 ^ 31 - 1

def digitsValue (ds : List Char) : ℕ :=
  ds.foldl (fun n c => n * 10 + (c.toNat - 48)) 0

/-- `scan()`: the next token and the scanner behind it. A token that is not taken is
looked at again, so the source's cached token needs no field. -/
def Scanner.scan (ts : TokenSet) (sc : Scanner) : Token × Scanner :=
  match sc.rest with
  | [] => (.noToken, sc)
  | c :: t =>
    if c = '.' ∧ ts = .year then (.dot, { rest := t, store := [c] })
    else if c = ':' then (.colon, { rest := t, store := [c] })
    else if c = '=' then (.equalSign, { rest := t, store := [c] })
    else if c = '-' then (.minus, { rest := t, store := [c] })
    else if c = ',' then (.comma, { rest := t, store := [c] })
    else if c = ' ' then (.space, { rest := t, store := [c] })
    else if c.isAlpha then
      let word := c :: t.takeWhile Char.isAlphanum
      (.string word, { rest := t.dropWhile Char.isAlphanum, store := word })
    else if c.isDigit then
      let digits := c :: t.takeWhile Char.isDigit
      if digitsValue digits ≤ intMax then
        (.number (digitsValue digits), { rest := t.dropWhile Char.isDigit, store := digits })
      else (.errToken, { rest := c :: t, store := [c] })
    else (.errToken, { rest := c :: t, store := [c] })

def lowerCase (s : List Char) : List Char := s.map Char.toLower

/-- `cheap_scan()` with three characters: a shorter word has to be the whole text, a
longer one is a prefix of it. -/
def cheapScan {α : Type} (s : List Char) (tokenv : List (α × List Char)) : Option α :=
  let hit (text : List Char) : Bool :=
    if s.length < 3 then text = lowerCase s else (lowerCase s).isPrefixOf text
  (tokenv.find? fun e => hit e.2).map Prod.fst

def statev : List (ℕ × List Char) :=
  [(qiDoEnable, "on".toList), (qiDoDisable, "off".toList), (qiDoSuspend, "suspended".toList)]

def monthv : List (ℤ × List Char) :=
  [(1, "january".toList), (2, "february".toList), (3, "march".toList), (4, "april".toList),
   (5, "may".toList), (6, "june".toList), (7, "july".toList), (8, "august".toList),
   (9, "september".toList), (10, "october".toList), (11, "november".toList),
   (12, "december".toList)]

def weekdayv : List (ℤ × List Char) :=
  [(0, "sunday".toList), (1, "monday".toList), (2, "tuesday".toList),
   (3, "wednesday".toList), (4, "thursday".toList), (5, "friday".toList),
   (6, "saturday".toList)]

/-! ## Numbers and words -/

def rangeNumber (ts : TokenSet) (min max : ℤ) (name : List Char) (sc : Scanner) :
    Except ParseMessage (ℤ × Scanner) :=
  match sc.scan ts with
  | (.number n, sc) =>
    if max < n ∨ n < min then .error (.outsideOfRange sc.store min max name) else .ok (n, sc)
  | (_, sc) => .error (.isNotA sc.store name)

def day (ts : TokenSet) : Scanner → Except ParseMessage (ℤ × Scanner) :=
  rangeNumber ts 1 31 "day".toList

def year (ts : TokenSet) : Scanner → Except ParseMessage (ℤ × Scanner) :=
  rangeNumber ts 1970 2037 "year".toList

def hour (ts : TokenSet) : Scanner → Except ParseMessage (ℤ × Scanner) :=
  rangeNumber ts 0 24 "hour specification".toList

def minute (ts : TokenSet) : Scanner → Except ParseMessage (ℤ × Scanner) :=
  rangeNumber ts 0 59 "minute specification".toList

def seconds (ts : TokenSet) : Scanner → Except ParseMessage (ℤ × Scanner) :=
  rangeNumber ts 0 59 "seconds specification".toList

/-- `month()`: a name or a number; months count from 0 in a time. -/
def month (ts : TokenSet) (sc : Scanner) : Except ParseMessage (ℤ × Scanner) :=
  match sc.scan ts with
  | (.string s, next) =>
    match cheapScan s monthv with
    | some m => .ok (m - 1, next)
    | none => .error .noMessage
  | _ =>
    (rangeNumber ts 1 12 "month".toList sc).bind fun (m, sc) => .ok (m - 1, sc)

def action (ts : TokenSet) (sc : Scanner) : Except ParseMessage (ℕ × Scanner) :=
  match sc.scan ts with
  | (.string s, next) =>
    match cheapScan s statev with
    | some state => .ok (state, next)
    | none => .error (.isNotAStateSpecifier s)
  | (_, next) => .error (.isNotAStateSpecifier next.store)

/-! ## Days of the year -/

def yearDay (ts : TokenSet) (sc : Scanner) : Except ParseMessage (Tm × Scanner) := do
  let (d, sc) ← day ts sc
  match sc.scan ts with
  | (.dot, sc) =>
    let (m, sc) ← month ts sc
    match sc.scan ts with
    | (.dot, sc) =>
      let (y, sc) ← year ts sc
      .ok ({ emptyTm with year := y - 1900, mon := m, mday := d }, sc)
    | _ => .error .missingPointAfterMonth
  | _ => .error .missingPointAfterDay

def yearDayRange (ts : TokenSet) (sc : Scanner) : Except ParseMessage (TimeRange × Scanner) := do
  let (t1, sc) ← yearDay ts sc
  match sc.scan ts with
  | (.minus, sc) =>
    let (t2, sc) ← yearDay ts sc
    if 0 < tmYdayCmp t1 t2 then .error .firstYeardayMustBeBeforeSecond
    else .ok ({ tmrBegin := t1, tmrEnd := some t2 }, sc)
  | _ => .ok ({ tmrBegin := t1, tmrEnd := none }, sc)

/-- The loop of the list parsers: as long as a comma follows, one more item is read and
`add` puts it into the list. `fuel` is the number of characters left; every turn takes the
comma at least. -/
def commaList {α : Type} (ts : TokenSet) (item : Scanner → Except ParseMessage (α × Scanner))
    (add : List α → α → List α) : ℕ → List α → Scanner → Except ParseMessage (List α × Scanner)
  | 0, acc, sc => .ok (acc, sc)
  | fuel + 1, acc, sc =>
    match sc.scan ts with
    | (.comma, next) => do
      let (a, next) ← item next
      commaList ts item add fuel (add acc a) next
    | _ => .ok (acc, sc)

def yearDayRangeList (ts : TokenSet) (sc : Scanner) :
    Except ParseMessage (List TimeRange × Scanner) := do
  let (tmr, sc) ← yearDayRange ts sc
  commaList ts (yearDayRange ts) (fun acc r => acc ++ [r]) sc.rest.length [tmr] sc

/-! ## Daytimes -/

/-- The optional minutes and seconds of `daytime()`. -/
def daytimeFields (ts : TokenSet) (sc : Scanner) :
    Except ParseMessage ((ℤ × ℤ) × Scanner) :=
  match sc.scan ts with
  | (.colon, sc) => do
    let (m, sc) ← minute ts sc
    match sc.scan ts with
    | (.colon, sc) => do
      let (s, sc) ← seconds ts sc
      .ok ((m, s), sc)
    | _ => .ok ((m, 0), sc)
  | _ => .ok ((0, 0), sc)

def daytime (ts : TokenSet) (sc : Scanner) : Except ParseMessage (Tm × Scanner) := do
  let (h, sc) ← hour ts sc
  let ((m, s), sc) ← daytimeFields ts sc
  if h = 24 ∧ (m ≠ 0 ∨ s ≠ 0) then .error .daytimesBeyond24hNotAllowed
  else .ok ({ emptyTm with hour := h, min := m, sec := s }, sc)

def daytimeRange (ts : TokenSet) (sc : Scanner) : Except ParseMessage (TimeRange × Scanner) := do
  let (t1, sc) ← daytime ts sc
  match sc.scan ts with
  | (.minus, sc) =>
    let (t2, sc) ← daytime ts sc
    if tmDaytimeCmp t1 t2 = 0 then .error .rangeBeginIsEqualToEnd
    else .ok ({ tmrBegin := t1, tmrEnd := some t2 }, sc)
  | _ => .error .missingDashInDaytimeRange

/-- `split_daytime_range()`, for the range just read: one that begins after it ends becomes
the rest of its day and the first part of the day. -/
def splitDaytimeRange (dtrl : List TimeRange) (tmr : TimeRange) : List TimeRange :=
  match tmr.tmrEnd with
  | some t2 =>
    if 0 < tmDaytimeCmp tmr.tmrBegin t2 then
      dtrl ++ [{ tmr with tmrEnd := some { emptyTm with hour := 24 } },
        { tmrBegin := emptyTm, tmrEnd := some t2 }]
    else dtrl ++ [tmr]
  | none => dtrl ++ [tmr]

def daytimeRangeList (ts : TokenSet) (sc : Scanner) :
    Except ParseMessage (List TimeRange × Scanner) := do
  let (tmr, sc) ← daytimeRange ts sc
  commaList ts (daytimeRange ts) splitDaytimeRange sc.rest.length (splitDaytimeRange [] tmr) sc

def fullDaytimeRange : List TimeRange :=
  [{ tmrBegin := emptyTm, tmrEnd := some { emptyTm with hour := 24 } }]

/-- The test of `normalize_range_list()` for overlapping ranges. -/
def rangesOverlap (cmpFunc : CmpFunc) (r q : TimeRange) : Bool :=
  inRange r.tmrBegin q cmpFunc || r.tmrEnd.any (inRange · q cmpFunc) ||
    inRange q.tmrBegin r cmpFunc || q.tmrEnd.any (inRange · r cmpFunc)

/-- Two overlapping ranges combined: the lists `TMR_begin` and `TMR_end` change places
where those of `q` reach further. Comparing two ends that are both absent aborts; the
lists normalized have their ends. -/
def combineRanges (cmpFunc : CmpFunc) (r q : TimeRange) : TimeRange where
  tmrBegin := if 0 < cmpFunc r.tmrBegin q.tmrBegin then q.tmrBegin else r.tmrBegin
  tmrEnd :=
    match r.tmrEnd, q.tmrEnd with
    | some r2, some q2 => if cmpFunc r2 q2 < 0 then some q2 else some r2
    | none, some q2 => some q2
    | r2, none => r2

/-- The inner loop: `r` takes over the first range behind it that overlaps and looks at all
of them again. `fuel` is the number of ranges behind `r`; every turn removes one. -/
def absorbRanges (cmpFunc : CmpFunc) :
    ℕ → TimeRange → List TimeRange → TimeRange × List TimeRange
  | 0, r, rest => (r, rest)
  | fuel + 1, r, rest =>
    match rest.find? (rangesOverlap cmpFunc r) with
    | some q =>
      absorbRanges cmpFunc fuel (combineRanges cmpFunc r q)
        (rest.eraseP (rangesOverlap cmpFunc r))
    | none => (r, rest)

/-- The outer loop, over the ranges that are left; `fuel` is their number. -/
def normalizeRanges (cmpFunc : CmpFunc) : ℕ → List TimeRange → List TimeRange
  | fuel + 1, r :: rest =>
    let absorbed := absorbRanges cmpFunc rest.length r rest
    absorbed.1 :: normalizeRanges cmpFunc fuel absorbed.2
  | _, rl => rl

def normalizeRangeList (cmpFunc : CmpFunc) (rl : List TimeRange) : List TimeRange :=
  normalizeRanges cmpFunc rl.length rl

/-! ## Days of the week -/

def weekDay (ts : TokenSet) (sc : Scanner) : Except ParseMessage (Tm × Scanner) :=
  match sc.scan ts with
  | (.string s, sc) =>
    match cheapScan s weekdayv with
    | some wday => .ok ({ emptyTm with wday }, sc)
    | none => .error (.isNotAWeekday s)
  | _ => .error .expectedStringForWeekday

def weekDayRange (ts : TokenSet) (sc : Scanner) :
    Except ParseMessage (TimeRange × Scanner) := do
  let (t1, sc) ← weekDay ts sc
  match sc.scan ts with
  | (.minus, sc) =>
    let (t2, sc) ← weekDay ts sc
    if tmWdayCmp t1 t2 = 0 then .error .foundUselessWeekdayRange
    else .ok ({ tmrBegin := t1, tmrEnd := some t2 }, sc)
  | _ => .ok ({ tmrBegin := t1, tmrEnd := none }, sc)

/-- `split_wday_range()`, for the range just read: one over the end of the week becomes its
two parts. -/
def splitWdayRange (wdrl : List TimeRange) (tmr : TimeRange) : List TimeRange :=
  match tmr.tmrEnd with
  | some t2 =>
    if 0 < tmWdayCmp tmr.tmrBegin t2 then
      wdrl ++ [{ tmr with tmrEnd := some { emptyTm with wday := 6 } },
        { tmrBegin := emptyTm, tmrEnd := some t2 }]
    else wdrl ++ [tmr]
  | none => wdrl ++ [tmr]

def TimeRange.endWday (r : TimeRange) : ℤ := (r.tmrEnd.getD r.tmrBegin).wday

/-- One turn of the inner loop of `join_wday_range()` for the range `q`. The outer loop
stands at `day1`, whose begin and end (`endList1` with its day `end1`) were read before the
loop; `s` is what has become of it and the ranges not removed. Without an end list of its
own the range gets a copy of the list of `q`, which may be none. -/
def joinStep (day1 : TimeRange) (s : TimeRange × List TimeRange) (q : TimeRange) :
    TimeRange × List TimeRange :=
  if q.tmrBegin.wday ≤ day1.endWday + 1 ∧ day1.tmrBegin.wday ≤ q.tmrBegin.wday then
    if day1.endWday < q.endWday then
      match day1.tmrEnd with
      | some t => ({ s.1 with tmrEnd := some { t with wday := q.endWday } }, s.2)
      | none => ({ s.1 with tmrEnd := q.tmrEnd }, s.2)
    else s
  else (s.1, s.2 ++ [q])

/-- The outer loop of `join_wday_range()`; `fuel` is the number of ranges it has not stood
at. -/
def joinRanges : ℕ → List TimeRange → List TimeRange → List TimeRange
  | fuel + 1, before, day1 :: after =>
    let s := before.foldl (joinStep day1) (day1, [])
    let t := after.foldl (joinStep day1) (s.1, [])
    joinRanges fuel (s.2 ++ [t.1]) t.2
  | _, before, after => before ++ after

def joinWdayRange (weekDay : List TimeRange) : List TimeRange :=
  joinRanges weekDay.length [] weekDay

/-- The inner loop of `extend_wday_range()` over the ranges `others`, `end1` as read before
it. A range that ends on Saturday is continued by one that begins on Sunday. -/
def extendRange (day1 : TimeRange) (others : List TimeRange) : TimeRange :=
  others.foldl (fun r q =>
    if day1.endWday = 6 ∧ q.tmrBegin.wday = 0 then
      { r with tmrEnd := some { r.tmrEnd.getD r.tmrBegin with
          wday := day1.endWday + 1 + q.endWday } }
    else r) day1

/-- The outer loop of `extend_wday_range()`. -/
def extendRanges (before : List TimeRange) : List TimeRange → List TimeRange
  | [] => before
  | day1 :: after => extendRanges (before ++ [extendRange day1 (before ++ after)]) after

def extendWdayRange (weekDay : List TimeRange) : List TimeRange := extendRanges [] weekDay

def weekDayRangeList (ts : TokenSet) (sc : Scanner) :
    Except ParseMessage (List TimeRange × Scanner) := do
  let (tmr, sc) ← weekDayRange ts sc
  let (wdrl, sc) ←
    commaList ts (weekDayRange ts) splitWdayRange sc.rest.length (splitWdayRange [] tmr) sc
  .ok (extendWdayRange (joinWdayRange wdrl), sc)

def fullWeekdayRange : List TimeRange :=
  [{ tmrBegin := emptyTm, tmrEnd := some { emptyTm with wday := 6 } }]

/-! ## Entries -/

/-- What is read of an entry before its element is created. -/
structure EntryParts where
  days : Option (List TimeRange)
  daytimes : Option (List TimeRange)
  state : ℕ

def entryState (ts : TokenSet) (days daytimes : Option (List TimeRange)) (sc : Scanner) :
    Except ParseMessage (EntryParts × Scanner) :=
  match sc.scan ts with
  | (.string _, _) => do
    let (state, sc) ← action ts sc
    .ok ({ days, daytimes, state }, sc)
  | _ => .error .gotEqualWithoutDaytimeRangeOrState

/-- The daytimes of an entry, when it has any, and what follows an equal sign. -/
def entryDaytimes (ts : TokenSet) (days : Option (List TimeRange)) (sc : Scanner) :
    Except ParseMessage (EntryParts × Scanner) :=
  match sc.scan ts with
  | (.number _, _) => do
    let (dtrl, sc) ← daytimeRangeList ts sc
    let daytimes := some (normalizeRangeList tmDaytimeCmp dtrl)
    match sc.scan ts with
    | (.equalSign, sc) => entryState ts days daytimes sc
    | _ => .ok ({ days, daytimes, state := qiDoDisable }, sc)
  | _ => entryState ts days none sc

/-- What `disabled_year_entry()` reads. -/
def yearEntryParts (sc : Scanner) : Except ParseMessage (EntryParts × Scanner) :=
  match sc.scan .year with
  | (.number _, _) => do
    let (ydrl, sc) ← yearDayRangeList .year sc
    match sc.scan .year with
    | (.equalSign, sc) => entryDaytimes .year (some ydrl) sc
    | _ => .ok ({ days := some ydrl, daytimes := none, state := qiDoDisable }, sc)
  | _ => entryDaytimes .year none sc

def disabledYearEntry (sc : Scanner) : Except ParseMessage (CalendarEntry × Scanner) := do
  let (parts, sc) ← yearEntryParts sc
  .ok ({ ydayRangeList := parts.days, wdayRangeList := none,
         daytimeRangeList := some (parts.daytimes.getD fullDaytimeRange),
         state := parts.state }, sc)

/-- What `disabled_week_entry()` reads. -/
def weekEntryParts (sc : Scanner) : Except ParseMessage (EntryParts × Scanner) :=
  match sc.scan .week with
  | (.string s, _) =>
    if (cheapScan s statev).isNone then do
      let (wdrl, sc) ← weekDayRangeList .week sc
      match sc.scan .week with
      | (.equalSign, sc) => entryDaytimes .week (some wdrl) sc
      | _ => .ok ({ days := some wdrl, daytimes := none, state := qiDoDisable }, sc)
    else entryDaytimes .week none sc
  | _ => entryDaytimes .week none sc

def disabledWeekEntry (sc : Scanner) : Except ParseMessage (CalendarEntry × Scanner) := do
  let (parts, sc) ← weekEntryParts sc
  .ok ({ ydayRangeList := none, wdayRangeList := some (parts.days.getD fullWeekdayRange),
         daytimeRangeList := some (parts.daytimes.getD fullDaytimeRange),
         state := parts.state }, sc)

/-! ## Specifications -/

/-- All the spaces in front of the next token. -/
def eatSpaces (ts : TokenSet) : ℕ → Scanner → Scanner
  | 0, sc => sc
  | fuel + 1, sc =>
    match sc.scan ts with
    | (.space, next) => eatSpaces ts fuel next
    | _ => sc

/-- The loop over the entries of a specification, with the characters left as `fuel`. -/
def entryList (ts : TokenSet) (entry : Scanner → Except ParseMessage (CalendarEntry × Scanner))
    (atEnd : Scanner → ParseMessage) :
    ℕ → List CalendarEntry → Scanner → Except ParseMessage (List CalendarEntry)
  | 0, acc, _ => .ok acc
  | fuel + 1, acc, sc =>
    match sc.scan ts with
    | (.space, next) => do
      let (ca, sc) ← entry (eatSpaces ts next.rest.length next)
      entryList ts entry atEnd fuel (acc ++ [ca]) sc
    | (.noToken, _) => .ok acc
    | (_, next) => .error (atEnd next)

/-- Both list parsers: nothing and `NONE` are no list at all. -/
def disabledList (ts : TokenSet) (entry : Scanner → Except ParseMessage (CalendarEntry × Scanner))
    (atEnd : Scanner → ParseMessage) (s : Option (List Char)) :
    Except ParseMessage (List CalendarEntry) :=
  match s with
  | none => .ok []
  | some s =>
    if lowerCase s = "none".toList then .ok []
    else do
      let (ca, sc) ← entry { rest := s, store := [] }
      entryList ts entry atEnd sc.rest.length [ca] sc

def disabledYearList : Option (List Char) → Except ParseMessage (List CalendarEntry) :=
  disabledList .year disabledYearEntry fun sc => .tokenUnrecognizedString sc.store

def disabledWeekList : Option (List Char) → Except ParseMessage (List CalendarEntry) :=
  disabledList .week disabledWeekEntry fun _ => .unrecognizedTokenAtEnd

end ClusterScheduler.Sgeobj.Calendar
