import Ohmic.Parts.CatalogError
import Ohmic.Text.Blank

set_option autoImplicit false

/-!
# Preferred numbers

The E-series of IEC 60063: each holds a number of significands per decade, and every shorter
series of two or three digits is an even selection from the longest one.

## Main definitions

* `PreferredSeries` — the seven series, E3 to E192.
* `PreferredSeries.significands` — the significands of one decade, ascending.
* `PreferredSeries.name`, `PreferredSeries.ofName` — `E` and the number of values per decade; a
  name is read without regard to ASCII case and to blanks at its ends.
-/

namespace Ohmic

/-- The series of preferred numbers. -/
inductive PreferredSeries where
  /-- Three values per decade. -/
  | e3
  /-- Six values per decade. -/
  | e6
  /-- Twelve values per decade. -/
  | e12
  /-- Twenty-four values per decade. -/
  | e24
  /-- Forty-eight values per decade. -/
  | e48
  /-- Ninety-six values per decade. -/
  | e96
  /-- One hundred and ninety-two values per decade. -/
  | e192
deriving DecidableEq

namespace PreferredSeries

/-- Every series, the coarsest first. -/
def all : List PreferredSeries := [e3, e6, e12, e24, e48, e96, e192]

/-- The number of values per decade. -/
def perDecade : PreferredSeries → Nat
  | e3 => 3
  | e6 => 6
  | e12 => 12
  | e24 => 24
  | e48 => 48
  | e96 => 96
  | e192 => 192

/-- The longest series of two digits. -/
def twoDigits : List UInt16 :=
  [10, 11, 12, 13, 15, 16, 18, 20, 22, 24, 27, 30,
    33, 36, 39, 43, 47, 51, 56, 62, 68, 75, 82, 91]

/-- The longest series of three digits. -/
def threeDigits : List UInt16 :=
  [100, 101, 102, 104, 105, 106, 107, 109, 110, 111, 113, 114,
    115, 117, 118, 120, 121, 123, 124, 126, 127, 129, 130, 132,
    133, 135, 137, 138, 140, 142, 143, 145, 147, 149, 150, 152,
    154, 156, 158, 160, 162, 164, 165, 167, 169, 172, 174, 176,
    178, 180, 182, 184, 187, 189, 191, 193, 196, 198, 200, 203,
    205, 208, 210, 213, 215, 218, 221, 223, 226, 229, 232, 234,
    237, 240, 243, 246, 249, 252, 255, 258, 261, 264, 267, 271,
    274, 277, 280, 284, 287, 291, 294, 297, 301, 305, 309, 312,
    316, 320, 324, 328, 332, 336, 340, 344, 348, 352, 357, 361,
    365, 370, 374, 379, 383, 388, 392, 397, 402, 407, 412, 417,
    422, 427, 432, 437, 442, 448, 453, 459, 464, 470, 475, 481,
    487, 493, 499, 505, 511, 517, 523, 530, 536, 542, 549, 556,
    562, 569, 576, 583, 590, 597, 604, 612, 619, 626, 634, 642,
    649, 657, 665, 673, 681, 690, 698, 706, 715, 723, 732, 741,
    750, 759, 768, 777, 787, 796, 806, 816, 825, 835, 845, 856,
    866, 876, 887, 898, 909, 920, 931, 942, 953, 965, 976, 988]

/-- The longest series with the number of digits of this one. -/
def longest : PreferredSeries → List UInt16
  | e3 | e6 | e12 | e24 => twoDigits
  | e48 | e96 | e192 => threeDigits

/-- The significands of one decade: every so-manyth value of the longest series, from the first
one on. -/
def significands (s : PreferredSeries) : List UInt16 :=
  let stride := s.longest.length / s.perDecade
  (s.longest.zipIdx.filter fun entry => entry.2 % stride == 0).map Prod.fst

/-- The name of a series. -/
def name (s : PreferredSeries) : String := "E" ++ toString s.perDecade

/-- Two texts agree up to the case of ASCII letters. -/
def sameUpToCase (s t : String) : Bool :=
  s.toList.map Char.toLower == t.toList.map Char.toLower

/-- The series with a name. -/
def ofName {S : Type} (name : String) : Except (CatalogError S) PreferredSeries :=
  match all.find? fun s => sameUpToCase s.name (Text.strip name) with
  | some s => .ok s
  | none => .error (.unknownSeries name)

end PreferredSeries

end Ohmic
