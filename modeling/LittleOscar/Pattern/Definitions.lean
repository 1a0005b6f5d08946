import LittleOscar.Machine.Integer
import LittleOscar.Machine.Memory

/-!
# OSC patterns

The functions of `pattern.c`. They only read two strings, so a pointer into a string is
the part of the string from it on, up to the NUL: `*p` is the head of the list, the
NUL is reached at `[]` and the difference of two pointers into one string is that of
their lengths. A pointer that is moved past the NUL has no result.

A loop inside a loop is a function of its own. Where the inner loop ends, it goes on
with the loop around it, so that every step of either moves `p`.
-/

namespace LittleOscar

open Machine

def oscPatternInvalid : Int := 0

def oscPatternStatic : Int := 1

def oscPatternDynamic : Int := 2

/-- `osc_pattern_t`. -/
structure OscPattern where
  isStatic : Bool
  pattern : CString
  deriving DecidableEq

mutual

/-- The outer loop of `osc_pattern_verify`, and the `return` behind it. There `p` is at
the NUL, so that `p - 1` is at the last character. -/
def verifyLoop (pattern slash : List UInt8) (hasMeta : Bool) : List UInt8 → Int
  | [] =>
      if pattern.getLast? = some '/'.toUInt8 then oscPatternInvalid
      else if hasMeta then oscPatternDynamic
      else oscPatternStatic
  | c :: p =>
      if c = '/'.toUInt8 then
        if (slash.length : Int) - (c :: p).length = 1 then oscPatternInvalid
        else verifyLoop pattern (c :: p) hasMeta p
      else if c = '['.toUInt8 then oscPatternInvalid
      else if c = '{'.toUInt8 then verifyGroup pattern slash 0 p
      else if c = '*'.toUInt8 ∨ c = '?'.toUInt8 then verifyLoop pattern slash true p
      else if c = '#'.toUInt8 ∨ c = ']'.toUInt8 ∨ c = '}'.toUInt8 ∨ c = ','.toUInt8 ∨
          c = ' '.toUInt8 then oscPatternInvalid
      else verifyLoop pattern slash hasMeta p

/-- The loop over the alternatives of a group. At the closing brace it goes on behind
it, with `has_meta` set; at the NUL the pattern is invalid. The `int seg_len` is only
compared with zero. In an alternative of two gigabytes it overflows, and is taken to
wrap there as the sizes of messages are. -/
def verifyGroup (pattern slash : List UInt8) (segLen : Int) : List UInt8 → Int
  | [] => oscPatternInvalid
  | c :: p =>
      if c = '/'.toUInt8 ∨ c = '#'.toUInt8 ∨ c = ']'.toUInt8 ∨ c = ' '.toUInt8 ∨
          c = '*'.toUInt8 ∨ c = '?'.toUInt8 then oscPatternInvalid
      else if c = ','.toUInt8 then
        if segLen = 0 then oscPatternInvalid else verifyGroup pattern slash 0 p
      else if c = '}'.toUInt8 then
        if segLen = 0 then oscPatternInvalid else verifyLoop pattern slash true p
      else verifyGroup pattern slash (wrap32 (segLen + 1)) p

end

/-- `osc_pattern_verify`, where `none` is the null pointer. -/
def oscPatternVerify : Option CString → Int
  | none => oscPatternInvalid
  | some pattern =>
      match pattern.bytes with
      | [] => oscPatternInvalid
      | c :: p =>
          if c ≠ '/'.toUInt8 then oscPatternInvalid
          else verifyLoop pattern.bytes pattern.bytes false p

/-- `osc_pattern_compile`. -/
def oscPatternCompile (patternOut : OscPattern) (patternIn : CString) : Int × OscPattern :=
  let result := oscPatternVerify (some patternIn)
  if result = 0 then (0, patternOut)
  else (1, { isStatic := decide (result = oscPatternStatic), pattern := patternIn })

/-- `strcmp` of the C library: the difference of the first two bytes that differ. -/
def strcmp : List UInt8 → List UInt8 → Int
  | [], [] => 0
  | [], b :: _ => -(b.toNat : Int)
  | a :: _, [] => a.toNat
  | a :: s, b :: t => if a = b then strcmp s t else (a.toNat : Int) - b.toNat

/-- The `return` of `do_pattern_match` behind its loop. -/
def matchEnd (p i : List UInt8) : Int :=
  let p := if p.head? = some '*'.toUInt8 then p.tail else p
  if p = [] ∧ i = [] then 1 else 0

mutual

/-- The loop of `do_pattern_match`. -/
def matchLoop (slash : List UInt8) : List UInt8 → List UInt8 → Option Int
  | [], i => some (matchEnd [] i)
  | c :: p, [] => some (matchEnd (c :: p) [])
  | c :: p, d :: i =>
      if d = '/'.toUInt8 then
        if (slash.length : Int) - (d :: i).length = 1 then some 0
        else if c = '*'.toUInt8 then
          match p with
          | [] => some 0
          | c' :: p => if c' ≠ '/'.toUInt8 then some 0 else matchLoop (d :: i) p i
        else if c ≠ '/'.toUInt8 then some 0
        else matchLoop (d :: i) p i
      else if c = '?'.toUInt8 then matchLoop slash p i
      else if c = '*'.toUInt8 then
        matchLoop slash p ((d :: i).dropWhile (· ≠ '/'.toUInt8))
      else if c = '['.toUInt8 then some 0
      else if c = '{'.toUInt8 then matchGroup slash (d :: i) p (d :: i)
      else if c ≠ d then some 0
      else matchLoop slash p i
termination_by structural p => p

/-- The loop over the alternatives of a group. Two NULs are equal, and the pointers are
then moved past them; at the NUL of one string alone the loop behind a mismatch runs past
the NUL of the pattern. -/
def matchGroup (slash mark : List UInt8) : List UInt8 → List UInt8 → Option Int
  | [], _ => none
  | c :: p, i =>
      if i.head? = some c then
        match p with
        | [] => matchGroup slash mark [] i.tail
        | c' :: p =>
            if c' = ','.toUInt8 then closeGroup slash i.tail p
            else if c' = '}'.toUInt8 then matchLoop slash p i.tail
            else matchGroup slash mark (c' :: p) i.tail
      else if c = ','.toUInt8 then matchGroup slash mark p mark
      else if c = '}'.toUInt8 then some 0
      else nextAlternative slash mark p
termination_by structural p => p

/-- `while ((*p) != '}') p++` behind an alternative that was found. -/
def closeGroup (slash i : List UInt8) : List UInt8 → Option Int
  | [] => none
  | c :: p => if c ≠ '}'.toUInt8 then closeGroup slash i p else matchLoop slash p i
termination_by structural p => p

/-- `while (*p != ',' && *p != '}') p++` behind a mismatch, from its second round on. -/
def nextAlternative (slash mark : List UInt8) : List UInt8 → Option Int
  | [] => none
  | c :: p =>
      if c = ','.toUInt8 then matchGroup slash mark p mark
      else if c = '}'.toUInt8 then some 0
      else nextAlternative slash mark p
termination_by structural p => p

end

/-- `do_pattern_match`. The first character of the pattern is not looked at; a pattern
without one has no second. -/
def doPatternMatch (pattern input : CString) : Option Int :=
  match input.bytes with
  | [] => some 0
  | d :: i =>
      if d ≠ '/'.toUInt8 then some 0
      else
        match pattern.bytes with
        | [] => none
        | _ :: p => matchLoop input.bytes p i

/-- `osc_pattern_match`. -/
def oscPatternMatch (pattern : OscPattern) (input : CString) : Option Int :=
  if pattern.isStatic then
    some (if strcmp pattern.pattern.bytes input.bytes = 0 then 1 else 0)
  else doPatternMatch pattern.pattern input

end LittleOscar
