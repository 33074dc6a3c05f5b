import Ervan.Common.Holds

/-!
# The parsers with every access checked

The functions of `ervan::parse` once more, with a run that ends at the first access outside of
the span it is made through: a byte at an index that is not less than the size, an `advance` by
more than the size, or a copy of more bytes. The outer `none` is such a run. `operator[]` takes
its index as an `int`. What a run that ends well returns is what the parser returns.
-/

namespace Ervan.Parse.Guarded

/-- `src[i]`. -/
def get (m : Mem) (src : Span) (i : Nat) : Option UInt8 :=
  if 0 ≤ int32 i ∧ int32 i < src.len then some (m (src.start + (int32 i).toNat)) else none

/-- `src.advance(n)`. -/
def advance (src : Span) (n : Nat) : Option Span :=
  if n ≤ src.len then some (src.advance n) else none

/-- The first `n` bytes of the span, copied. -/
def copy (m : Mem) (src : Span) (n : Nat) : Option Bytes :=
  if n ≤ src.len then some (m.read src.start n) else none

/-- `i < src.size() && p(src[i])`. -/
def test (m : Mem) (src : Span) (i : Nat) (p : UInt8 → Bool) : Option Bool :=
  if i < src.len then (get m src i).map p else some false

/-- `src.size() > 0 && p(src[0])`. -/
def starts (m : Mem) (src : Span) (p : UInt8 → Bool) : Option Bool := test m src 0 p

def skipWhile (m : Mem) (p : UInt8 → Bool) : Nat → Span → Option Span
  | 0, src => some src
  | fuel + 1, src => do
      if ← starts m src p then skipWhile m p fuel (← advance src 1)
      else return src

/-- `while (size < src.size() && p(src[size])) size++;` -/
def sizeWhile (m : Mem) (p : UInt8 → Bool) (src : Span) : Nat → Nat → Option Nat
  | 0, size => some size
  | fuel + 1, size => do
      if ← test m src size p then sizeWhile m p src fuel (size + 1)
      else return size

def sized (m : Mem) (src : Span) (size max : Nat) : Option (Option BufferedResult) := do
  let rest ← advance src size
  if max + 1 ≤ size then return none
  else return some ⟨⟨⟨src.start, size⟩, rest⟩, ← copy m src size⟩

def atom (m : Mem) (src : Span) : Option (Option Result) := do
  if !(← starts m src isatext) then return none
  else
    let rest ← skipWhile m isatext src.len (← advance src 1)
    return some ⟨src.upTo rest, rest⟩

/-- Nothing is checked between the `advance` over a backslash and the byte behind it. -/
def quotedLoop (m : Mem) : Nat → Span → Option (Option Span)
  | 0, src => some (some src)
  | fuel + 1, src => do
      if ← starts m src (· != 34) then
        if (← get m src 0) == 92 then
          let src ← advance src 1
          let c ← get m src 0
          if schar c < 32 || schar c > 126 then return none
          else quotedLoop m fuel (← advance src 1)
        else if !isqtextSMTP (schar (← get m src 0)) then return none
        else quotedLoop m fuel (← advance src 1)
      else return some src

def quotedString (m : Mem) (src : Span) : Option (Option Result) := do
  if !(← starts m src (· == 34)) then return none
  else
    match ← quotedLoop m src.len (← advance src 1) with
    | none => return none
    | some rest =>
        if !(← starts m rest (· == 34)) then return none
        else
          let rest ← advance rest 1
          return some ⟨src.upTo rest, rest⟩

def quotedLocalPart (m : Mem) (quot : Result) : Option (Option BufferedResult) := do
  if localPartMaxSize + 1 ≤ quot.body.len then return none
  else
    let str ← copy m quot.body quot.body.len
    return some ⟨⟨quot.body.upTo quot.rest, quot.rest⟩, unquote (str.drop 1)⟩

def dotString (m : Mem) : Nat → Span → Option (Option Span)
  | 0, src => some (some src)
  | fuel + 1, src => do
      match ← atom m src with
      | none => return none
      | some result =>
          if !(← starts m result.rest (· == 46)) then return some result.rest
          else dotString m fuel (← advance result.rest 1)

def localPart (m : Mem) (src : Span) : Option (Option BufferedResult) := do
  match ← quotedString m src with
  | some quot => quotedLocalPart m quot
  | none =>
      match ← dotString m (src.len + 1) src with
      | none => return none
      | some rest => sized m src (src.upTo rest).len localPartMaxSize

def domainLabel (m : Mem) (src : Span) : Nat → Nat → Bool → Option (Option (Nat × Bool))
  | 0, size, required => some (some (size, required))
  | fuel + 1, size, required => do
      if size < src.len then
        let c ← get m src size
        if !isalnum c && c != 45 then return if required then none else some (size, required)
        else domainLabel m src fuel (size + 1) false
      else return some (size, required)

def domainLoop (m : Mem) (src : Span) : Nat → Nat → Bool → Option (Option Nat)
  | 0, size, _ => some (some size)
  | fuel + 1, size, required => do
      match ← domainLabel m src (src.len - size) size required with
      | none => return none
      | some (size, _) =>
          if ← test m src size (· == 45) then return none
          else if size == src.len then return some size
          else if (← get m src size) != 46 then return some size
          else domainLoop m src fuel (size + 1) true

def domain (m : Mem) (src : Span) : Option (Option BufferedResult) := do
  match ← domainLoop m src (src.len + 1) 0 true with
  | none => return none
  | some size => sized m src size domainMaxSize

def atDomain (m : Mem) (src : Span) : Option (Option BufferedResult) := do
  if !(← starts m src (· == 64)) then return none
  else domain m (← advance src 1)

def aDLLoop (m : Mem) : Nat → Span → Option (Option Span)
  | 0, src => some (some src)
  | fuel + 1, src => do
      if ← starts m src (· == 44) then
        match ← atDomain m (← advance src 1) with
        | none => return none
        | some result => aDLLoop m fuel result.rest
      else return some src

def aDL (m : Mem) (src : Span) : Option (Option Result) := do
  match ← atDomain m src with
  | none => return some ⟨.null, src⟩
  | some result =>
      match ← aDLLoop m src.len result.rest with
      | none => return none
      | some src =>
          if !(← starts m src (· == 58)) then return none
          else return some ⟨.null, ← advance src 1⟩

def mailbox (m : Mem) (base : Span) : Option (Option MailboxResult) := do
  let src := ((← aDL m base).map Result.rest).getD .null
  match ← localPart m src with
  | none => return none
  | some localPart =>
      if !(← starts m localPart.rest (· == 64)) then return none
      else
        match ← domain m (← advance localPart.rest 1) with
        | none => return none
        | some domain => return some ⟨⟨base.upTo domain.rest, domain.rest⟩, localPart, domain⟩

/-- The mailbox of a path and the bracket behind it. -/
def bracketed (m : Mem) (base src : Span) : Option (Option PartResult) := do
  match ← mailbox m src with
  | none => return none
  | some result =>
      if !(← starts m result.rest (· == 62)) then return none
      else
        let rest ← advance result.rest 1
        return some ⟨⟨base.upTo rest, rest⟩, result⟩

def path (m : Mem) (base : Span) : Option (Option PartResult) := do
  if !(← starts m base (· == 60)) then return none
  else bracketed m base (← advance base 1)

def reversePath (m : Mem) (base : Span) : Option (Option PartResult) := do
  if !(← starts m base (· == 60)) then return none
  else
    let src ← advance base 1
    if src.len == 0 then return none
    else if (← get m src 0) == 62 then
      let rest ← advance src 1
      return some ⟨⟨base.upTo rest, rest⟩, .null⟩
    else bracketed m base src

def esmtpKeyword (m : Mem) (src : Span) : Option (Option Result) := do
  if !(← starts m src isalnum) then return none
  else
    let rest ← advance src (← sizeWhile m isKeywordChar src src.len 1)
    return some ⟨src.upTo rest, rest⟩

def esmtpValue (m : Mem) (src : Span) : Option (Option Result) := do
  if !(← starts m src (isestmpvalue <| schar ·)) then return none
  else
    let rest ← advance src (← sizeWhile m (isestmpvalue <| schar ·) src src.len 1)
    return some ⟨src.upTo rest, rest⟩

def esmtpParam (m : Mem) (base : Span) : Option (Option EsmtpParamResult) := do
  match ← esmtpKeyword m base with
  | none => return none
  | some key =>
      if !(← starts m key.rest (· == 61)) then return none
      else
        match ← esmtpValue m (← advance key.rest 1) with
        | none => return none
        | some value => return some ⟨⟨base.upTo value.rest, value.rest⟩, key, value⟩

end Ervan.Parse.Guarded
