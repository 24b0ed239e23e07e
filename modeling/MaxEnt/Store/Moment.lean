import MaxEnt.Numeral.Real

namespace MaxEnt

/-- A time to the microsecond, in a year of four digits. -/
structure Moment where
  year : Nat
  month : Nat
  day : Nat
  hour : Nat
  minute : Nat
  second : Nat
  microsecond : Nat
  year_range : 1000 ≤ year ∧ year ≤ 9999
  month_range : 1 ≤ month ∧ month ≤ 12
  day_range : 1 ≤ day ∧ day ≤ 31
  hour_lt : hour < 24
  minute_lt : minute < 60
  second_lt : second < 60
  microsecond_lt : microsecond < 1000000
  deriving DecidableEq

namespace Moment

def parts (m : Moment) : List Nat :=
  [m.year, m.month, m.day, m.hour, m.minute, m.second, m.microsecond]

instance : LT Moment := ⟨fun a b => a.parts < b.parts⟩

instance (a b : Moment) : Decidable (a < b) := inferInstanceAs (Decidable (a.parts < b.parts))

def text (m : Moment) : Text :=
  Text.concat [Numeral.padded 4 m.year, Numeral.padded 2 m.month, Numeral.padded 2 m.day, "_",
    Numeral.padded 2 m.hour, Numeral.padded 2 m.minute, Numeral.padded 2 m.second, "_",
    Numeral.padded 6 m.microsecond]

end Moment

end MaxEnt
