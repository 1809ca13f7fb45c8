import Ohmic.Number.Binary64
import Ohmic.Parts.Catalog

set_option autoImplicit false

/-!
# Parts and their impedance

## Main definitions

* `Part` — the kinds of ideal parts: resistor, capacitor and inductor.
* `Part.impedance` — the impedance of a part of a given value at an angular frequency.
* `Catalog.impedances` — the impedances of all values of a catalogue.
* `angularFrequency` — `2π` times a frequency in hertz.
-/

namespace Ohmic

/-- A kind of ideal part. -/
inductive Part where
  /-- The value is a resistance in ohms. -/
  | resistor
  /-- The value is a capacitance in farads. -/
  | capacitor
  /-- The value is an inductance in henries. -/
  | inductor
deriving DecidableEq

namespace Part

/-- The impedance depends on the frequency. -/
def isReactive : Part → Bool
  | resistor => false
  | capacitor | inductor => true

/-- The impedance of a part at the angular frequency `omega`. A capacitor whose susceptance is
zero or not finite is refused. The impedance that goes with a susceptance next to zero is infinite,
and it is not refused here. -/
def impedance {S : Type} [Scalar S] (kind : Part) (value omega : S) :
    Except (CatalogError S) (Phasor S) :=
  match kind with
  | resistor => .ok ⟨value, 0⟩
  | inductor => .ok ⟨0, omega * value⟩
  | capacitor =>
    let susceptance := omega * value
    if susceptance == 0 || !Scalar.isFinite susceptance then .error (.openCapacitor value omega)
    else .ok ⟨0, -1 / susceptance⟩

end Part

/-- The impedances of the catalogue's values as parts of one kind, in catalogue order, or the
first refusal. -/
def Catalog.impedances {S : Type} [Scalar S] (c : Catalog S) (kind : Part) (omega : S) :
    Except (CatalogError S) (List (Phasor S)) :=
  c.magnitudes.mapM fun value => kind.impedance value omega

/-- The double nearest to `π`. -/
def pi : Float := Float.ofBits 0x400921fb54442d18

/-- The angular frequency of a frequency in hertz. -/
def angularFrequency (hz : Float) : Float := 2 * pi * hz

end Ohmic
