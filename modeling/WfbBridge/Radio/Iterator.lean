import Mathlib
import WfbBridge.Block
import WfbBridge.Library.Checked

/-!
# The radiotap iterator

`ieee80211_radiotap_iterator_init` and `ieee80211_radiotap_iterator_next` (`radiotap.c`), as
`RawReceiveSocket::receive` uses them: without vendor namespaces and without overrides.  Pointers
are offsets from the header.

`_next_ns_data` is set by a vendor namespace only, but it is read as well when a field has no size,
which is the case for field 18.
-/

namespace WfbBridge

open Checked

/-- Two bytes in little endian. -/
def readLe16 (buf : List UInt8) (i : ℕ) : Except Fault ℕ := do
  let lo ← readAt .bytes buf i
  let hi ← readAt .bytes buf (i + 1)
  .ok (lo.toNat + 256 * hi.toNat)

/-- Four bytes in little endian. -/
def readLe32 (buf : List UInt8) (i : ℕ) : Except Fault ℕ := do
  let lo ← readLe16 buf i
  let hi ← readLe16 buf (i + 2)
  .ok (lo + 65536 * hi)

/-- Bit 31 of a `present` word: another one follows. -/
def hasExt (word : ℕ) : Bool := 2147483648 ≤ word % 4294967296

/-- What goes wrong in the iterator. -/
inductive RadiotapFault where
  /-- a read outside the captured bytes -/
  | access (f : Fault)
  /-- a read of `_next_ns_data` before it is set -/
  | uninitialized
deriving DecidableEq

/-- What `ieee80211_radiotap_iterator_next` returns: 0, `-ENOENT` or `-EINVAL`. -/
inductive RadiotapNext where
  | found
  | noent
  | inval
deriving DecidableEq

/-- `rtap_namespace_sizes`: the alignment and the size of each field.  There is none
for field 18. -/
def rtapNamespaceSizes : List (ℕ × ℕ) :=
  [(8, 8), (1, 1), (1, 1), (2, 4), (2, 2), (1, 1), (1, 1), (2, 2), (2, 2), (2, 2), (1, 1), (1, 1),
    (1, 1), (1, 1), (2, 2), (2, 2), (1, 1), (1, 1), (0, 0), (1, 3), (4, 8), (2, 12), (8, 12)]

/-- `ieee80211_radiotap_iterator`.  `currentNamespace` is `radiotap_ns` or,
if it is false, `NULL`. -/
structure RadiotapIterator where
  maxLength : ℕ
  argIndex : ℕ := 0
  bitmapShifter : ℕ
  arg : ℕ
  nextBitmap : ℕ := 8
  nextNsData : Option ℕ := none
  resetOnExt : Bool := false
  currentNamespace : Bool := true
  isRadiotapNs : Bool := true
  thisArgIndex : ℕ := 0
  thisArg : ℕ
  thisArgSize : ℕ := 0
deriving DecidableEq

namespace RadiotapIterator

/-- The loop over the `present` words, with the place after them. -/
def skipPresent (buf : List UInt8) (itLen : ℕ) : ℕ → ℕ → Except Fault (Option ℕ)
  | 0, _ => .ok none
  | fuel + 1, arg => do
      let word ← readLe32 buf arg
      if hasExt word then
        if itLen < arg + 4 + 4 then .ok none else skipPresent buf itLen fuel (arg + 4)
      else .ok (some (arg + 4))

/-- `ieee80211_radiotap_iterator_init`; `max_length` is an `int`. -/
def init (buf : List UInt8) (maxLength : ℕ) : Except Fault (Option RadiotapIterator) :=
  if maxLength < 8 ∨ 2147483648 ≤ maxLength then .ok none
  else do
    let itVersion ← readAt .bytes buf 0
    if itVersion ≠ 0 then .ok none
    else do
      let itLen ← readLe16 buf 2
      if maxLength < itLen then .ok none
      else do
        let itPresent ← readLe32 buf 4
        if hasExt itPresent then
          if itLen < 8 + 4 then .ok none
          else do
            let arg? ← skipPresent buf itLen itLen 8
            .ok (arg?.map fun arg ↦
              { maxLength := itLen, bitmapShifter := itPresent, arg, thisArg := arg })
        else .ok (some { maxLength := itLen, bitmapShifter := itPresent, arg := 8, thisArg := 8 })

/-- What the `switch` says of an argument: its alignment and size, or that there are none. -/
inductive Entry where
  | sized (align size : ℕ)
  | skip
  | stop
deriving DecidableEq

/-- The `switch` over `_arg_index`. -/
def entry (it : RadiotapIterator) : Entry :=
  if it.argIndex % 32 = 29 ∨ it.argIndex % 32 = 31 then .sized 1 0
  else if it.argIndex % 32 = 30 then .sized 2 6
  else if it.currentNamespace then
    match rtapNamespaceSizes[it.argIndex]? with
    | none => .stop
    | some (align, size) => if align = 0 then .skip else .sized align size
  else .skip

/-- The label `next_entry`. -/
def nextEntry (it : RadiotapIterator) : RadiotapIterator :=
  { it with bitmapShifter := it.bitmapShifter / 2, argIndex := it.argIndex + 1 }

/-- The padding before an argument. -/
def pad (it : RadiotapIterator) (align : ℕ) : RadiotapIterator :=
  if it.arg % align = 0 then it else { it with arg := it.arg + (align - it.arg % align) }

/-- The argument is what is returned, and the iterator moves on by its size.  The special arguments
are valid in each bitmap word. -/
def visit (buf : List UInt8) (it : RadiotapIterator) (size : ℕ) :
    Except RadiotapFault (Option RadiotapNext × RadiotapIterator) :=
  let it := { it with
    thisArgIndex := it.argIndex
    thisArg := it.arg
    thisArgSize := size
    arg := it.arg + size }
  if it.maxLength < it.arg then .ok (some .inval, it)
  else if it.argIndex % 32 = 30 then
    -- there are no vendor namespaces, so it is shown as it is
    .ok (some .found,
      { it with resetOnExt := true, isRadiotapNs := false, thisArgIndex := 30 }.nextEntry)
  else if it.argIndex % 32 = 29 then
    .ok (none,
      { it with resetOnExt := true, currentNamespace := true, isRadiotapNs := true }.nextEntry)
  else if it.argIndex % 32 = 31 then do
    let bitmapShifter ← (readLe32 buf it.nextBitmap).mapError .access
    .ok (none, { it with
      bitmapShifter
      nextBitmap := it.nextBitmap + 4
      argIndex := if it.resetOnExt then 0 else it.argIndex + 1
      resetOnExt := false })
  else .ok (some .found, it.nextEntry)

/-- An argument with a size.  The namespace of a vendor is not found. -/
def sized (buf : List UInt8) (it : RadiotapIterator) (align size : ℕ) :
    Except RadiotapFault (Option RadiotapNext × RadiotapIterator) :=
  let it := it.pad align
  if it.argIndex % 32 = 30 then
    if it.maxLength < it.arg + size then .ok (some .inval, it)
    else do
      let _oui ← ([0, 1, 2].mapM fun i ↦ readAt .bytes buf (it.arg + i)).mapError .access
      let _subns ← (readAt .bytes buf (it.arg + 3)).mapError .access
      let vnslen ← (readLe16 buf (it.arg + 4)).mapError .access
      visit buf { it with currentNamespace := false, nextNsData := some (it.arg + size + vnslen) }
        (size + vnslen)
  else visit buf it size

/-- One turn of the loop of `ieee80211_radiotap_iterator_next`. -/
def turn (buf : List UInt8) (it : RadiotapIterator) :
    Except RadiotapFault (Option RadiotapNext × RadiotapIterator) :=
  if it.argIndex % 32 = 31 ∧ it.bitmapShifter % 2 = 0 then .ok (some .noent, it)
  else if it.bitmapShifter % 2 = 0 then .ok (none, it.nextEntry)
  else
    match it.entry with
    | .stop => .ok (some .noent, it)
    | .skip =>
        match it.nextNsData with
        | none => .error .uninitialized
        | some arg => .ok (none, { it with arg, currentNamespace := false }.nextEntry)
    | .sized align size => it.sized buf align size

/-- The loop; nothing is returned when the turns are used up. -/
def next (buf : List UInt8) :
    ℕ → RadiotapIterator → Except RadiotapFault (Option RadiotapNext × RadiotapIterator)
  | 0, it => .ok (none, it)
  | turns + 1, it => do
      match ← turn buf it with
      | (some r, it) => .ok (some r, it)
      | (none, it) => next buf turns it

/-- Enough turns for all that is left. -/
def turns (it : RadiotapIterator) : ℕ := 8 * (it.maxLength - it.nextBitmap) + 33

/-- `this_arg_index`, `this_arg` and `this_arg_size`. -/
structure Arg where
  index : ℕ
  offset : ℕ
  size : ℕ
deriving DecidableEq

/-- The argument the iterator is at. -/
def thisArgument (it : RadiotapIterator) : Arg := ⟨it.thisArgIndex, it.thisArg, it.thisArgSize⟩

/-- The loop of `receive`: the arguments, and what `next` returned after them. -/
def loop (buf : List UInt8) :
    ℕ → RadiotapIterator → Except RadiotapFault (List Arg × Option RadiotapNext)
  | 0, _ => .ok ([], none)
  | fuel + 1, it => do
      match ← next buf it.turns it with
      | (some .found, it) =>
          let (args, r) ← loop buf fuel it
          .ok (it.thisArgument :: args, r)
      | (r, _) => .ok ([], r)

/-- All arguments. -/
def args (buf : List UInt8) (it : RadiotapIterator) :
    Except RadiotapFault (List Arg × Option RadiotapNext) := loop buf it.turns it

end RadiotapIterator

end WfbBridge
