import Linguafranca.Support.CString
import Mathlib.Data.UInt
import Mathlib.Logic.Function.Basic

/-!
# The device set of ipshark2

`devset.c` keeps the names as an array of records with their hashes in a second array, both
sorted by the hash, and looks a name up by bisection. The hash function `jhash` of the kernel
is a parameter and the outcomes of the allocations are arguments. A record is its bytes.
-/

namespace Linguafranca.Ipshark2

/-- The initial value that the names are hashed with. -/
def devNameHashInitval : UInt32 := 59

/-- The static structure `data`; a NULL array is absent. -/
structure Data where
  black : Bool
  elenum : Int
  size : Int
  name : Option (ℕ → List UInt8)
  hash : Option (ℕ → UInt32)

/-- The device set when nothing is configured. -/
def Data.initial : Data :=
  ⟨false, 0, 0, none, none⟩

/-- Whether `__devset_create` returns memory. -/
def devsetCreate (kcallocName kcallocHash black : Bool) (elenum size : Int) (data : Data) :
    Bool × Data :=
  if elenum < 0 ∨ size ≤ 0 then (false, data)
  else
    let data := { data with name := none, hash := none }
    if !kcallocName then (false, data)
    else if !kcallocHash then (false, data)
    else
      (true, ⟨black, elenum, size, some fun _ => List.replicate size.toNat 0, some fun _ => 0⟩)

/-- The copy of records into the new memory. -/
def devsetCopy (records : ℕ → List UInt8) (data : Data) : Data :=
  { data with name := data.name.map fun _ => records }

/-- One iteration of the outer loop of `__devset_order`. A swap without the temporary buffer
has no result. -/
def orderPass (kzalloc : Bool) (n : ℕ) (both : (ℕ → List UInt8) × (ℕ → UInt32)) (i : ℕ) :
    Option ((ℕ → List UInt8) × (ℕ → UInt32)) :=
  let small := (List.range' (i + 1) (n - (i + 1))).foldl
    (fun small j => if both.2 j < both.2 small then j else small) i
  if small = i then some both
  else if !kzalloc then none
  else
    some (Function.update (Function.update both.1 i (both.1 small)) small (both.1 i),
      Function.update (Function.update both.2 i (both.2 small)) small (both.2 i))

section

variable (jhash : List UInt8 → UInt32 → UInt32)

/-- The hash of the string that starts with a record; it ends in the array at the latest. -/
def recordHash (n : ℕ) (name : ℕ → List UInt8) (i : ℕ) : UInt32 :=
  jhash (cString ((List.range' i (n - i)).flatMap name)) devNameHashInitval

/-- `devset_order`: the hashes are computed, and hashes and names sorted by selection. -/
def devsetOrder (kzalloc : Bool) (data : Data) : Option Data :=
  match data.name, data.hash with
  | some name, some old =>
      let n := data.elenum.toNat
      let hash : ℕ → UInt32 := fun i => if i < n then recordHash jhash n name i else old i
      ((List.range n).foldlM (orderPass kzalloc n) (name, hash)).map fun both =>
        { data with name := some both.1, hash := some both.2 }
  | _, _ => some data

/-- The loop of `devset_ignore`, which leaves its last index in `t`. -/
def bisect (hash : ℕ → UInt32) (h : UInt32) (low high t : Int) : Int :=
  if low ≤ high then
    if h < hash high.toNat ∧ hash low.toNat < h then
      let t := low + (high - low) / 2
      if h < hash t.toNat then bisect hash h low (t - 1) t
      else if hash t.toNat < h then bisect hash h (t + 1) high t
      else t
    else if h = hash high.toNat then high
    else if h = hash low.toNat then low
    else -1
  else t
termination_by (high + 1 - low).toNat
decreasing_by all_goals omega

/-- `devset_ignore`: a bisection by the hash, and one comparison of names. -/
def devsetIgnore (s : List UInt8) (data : Data) : Bool :=
  let high := data.elenum - 1
  if high < 0 then !data.black
  else
    match data.hash, data.name with
    | some hash, some name =>
        let t := bisect hash (jhash (cString s) devNameHashInitval) 0 high 0
        if t = -1 then !data.black
        else if strncmpEq data.size.toNat s (name t.toNat) then data.black
        else !data.black
    | _, _ => false

end

/-- `devset_exit`: the arrays are freed and the variables cleared. -/
def devsetExit (_data : Data) : Data :=
  Data.initial

section

variable (jhash : List UInt8 → UInt32 → UInt32)

/-- The macro `devset_init` for a list of records of one size. -/
def devsetInit (kcallocName kcallocHash kzalloc black : Bool) (len size : Int)
    (records : ℕ → List UInt8) (data : Data) : Option (Int × Data) :=
  let created := devsetCreate kcallocName kcallocHash black len size data
  if created.1 then
    (devsetOrder jhash kzalloc (devsetCopy records created.2)).map fun ordered => (0, ordered)
  else some (-1, devsetExit created.2)

end

end Linguafranca.Ipshark2
