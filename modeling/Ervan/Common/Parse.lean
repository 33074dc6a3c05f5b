import Ervan.Common.Span

/-!
# The address and parameter parsers

Every function of `ervan::parse` is a prefix parser on a span: it recognises a
prefix, and its result carries the recognised body and the rest. A malformed
result is `none`. The parsers read memory through the span, and the one
function that looks past the end of it, `quotedString`, does so here too. An
index is taken as it is; `operator[]` makes an `int` of it, and `Guarded` tells
on which spans that matters.
-/

namespace Ervan.Parse

def localPartMaxSize : Nat := 64
def domainMaxSize : Nat := 255

def isatext (c : UInt8) : Bool :=
  isalnum c || (text "!#$%&'*+-/=?^_`\x7b|\x7d~").contains c

def isqtextSMTP (c : Int) : Bool :=
  (32 ≤ c && c ≤ 33) || (35 ≤ c && c ≤ 91) || (93 ≤ c && c ≤ 126)

def isestmpvalue (c : Int) : Bool := (33 ≤ c && c ≤ 60) || (62 ≤ c && c ≤ 126)

structure Result where
  body : Span
  rest : Span
  deriving DecidableEq, Repr

/-- A result with its own NUL-terminated copy of what was recognised. -/
structure BufferedResult extends Result where
  buffer : Bytes
  deriving DecidableEq, Repr

structure MailboxResult extends Result where
  localPart : BufferedResult
  domain : BufferedResult
  deriving DecidableEq, Repr

structure PartResult extends Result where
  mailbox : MailboxResult
  deriving DecidableEq, Repr

structure EsmtpParamResult extends Result where
  key : Result
  value : Result
  deriving DecidableEq, Repr

def Result.null : Result := ⟨.null, .null⟩
def BufferedResult.null : BufferedResult := ⟨.null, []⟩
def MailboxResult.null : MailboxResult := ⟨.null, .null, .null⟩

/-- The constructor with a buffer of `max + 1` bytes: what does not fit is malformed. -/
def sized (m : Mem) (src : Span) (size max : Nat) : Option BufferedResult :=
  if max + 1 ≤ size then none
  else some ⟨⟨⟨src.start, size⟩, src.advance size⟩, m.read src.start size⟩

/-- The character a span starts with, if the span is not empty. -/
def starts (m : Mem) (src : Span) (p : UInt8 → Bool) : Bool :=
  src.len > 0 && p (m src.start)

/-- `while (src.size() > 0 && p(src[0])) src = src.advance(1);` -/
def skipWhile (m : Mem) (p : UInt8 → Bool) : Nat → Span → Span
  | 0, src => src
  | fuel + 1, src => if starts m src p then skipWhile m p fuel (src.advance 1) else src

def atom (m : Mem) (src : Span) : Option Result :=
  if !starts m src isatext then none
  else
    let rest := skipWhile m isatext src.len (src.advance 1)
    some ⟨src.upTo rest, rest⟩

/-- The body of a quoted string. A backslash at the end of the span makes the loop
look at the byte after it, and go on behind it when that byte is printable. -/
def quotedLoop (m : Mem) : Nat → Span → Option Span
  | 0, src => some src
  | fuel + 1, src =>
      if starts m src (· != 34) then
        if m src.start == 92 then
          let src := src.advance 1
          if schar (m src.start) < 32 || schar (m src.start) > 126 then none
          else quotedLoop m fuel (src.advance 1)
        else if !isqtextSMTP (schar (m src.start)) then none
        else quotedLoop m fuel (src.advance 1)
      else some src

def quotedStringFuel (m : Mem) (fuel : Nat) (src : Span) : Option Result :=
  if !starts m src (· == 34) then none
  else
    match quotedLoop m fuel (src.advance 1) with
    | none => none
    | some rest =>
        if !starts m rest (· == 34) then none
        else some ⟨src.upTo (rest.advance 1), rest.advance 1⟩

/-- The fuel covers the span and, should the loop leave it, all of memory. -/
def quotedString (m : Mem) (src : Span) : Option Result :=
  quotedStringFuel m (src.len + 2 ^ 64) src

/-- The copy loop of `local_part_result`: it starts after the opening quote and a
backslash makes it copy the next byte, whatever that is. -/
def unquote : Bytes → Bytes
  | [] => []
  | [_] => []
  | c :: d :: rest => if c == 92 then d :: unquote rest else c :: unquote (d :: rest)

/-- `local_part_result(quoted_string_result)`. -/
def quotedLocalPart (m : Mem) (quot : Result) : Option BufferedResult :=
  if localPartMaxSize + 1 ≤ quot.body.len then none
  else
    some ⟨⟨quot.body.upTo quot.rest, quot.rest⟩,
      unquote ((m.read quot.body.start quot.body.len).drop 1)⟩

/-- The atoms of a dot-string. -/
def dotString (m : Mem) : Nat → Span → Option Span
  | 0, src => some src
  | fuel + 1, src =>
      match atom m src with
      | none => none
      | some result =>
          if !starts m result.rest (· == 46) then some result.rest
          else dotString m fuel (result.rest.advance 1)

def localPart (m : Mem) (src : Span) : Option BufferedResult :=
  match quotedString m src with
  | some quot => quotedLocalPart m quot
  | none =>
      match dotString m (src.len + 1) src with
      | none => none
      | some rest => sized m src (src.upTo rest).len localPartMaxSize

/-- The inner loop of `domain`, over the bytes of one label. -/
def domainLabel (m : Mem) (src : Span) : Nat → Nat → Bool → Option (Nat × Bool)
  | 0, size, required => some (size, required)
  | fuel + 1, size, required =>
      if size < src.len then
        if !isalnum (m (src.start + size)) && m (src.start + size) != 45 then
          if required then none else some (size, required)
        else domainLabel m src fuel (size + 1) false
      else some (size, required)

/-- The outer loop of `domain`, over the labels. -/
def domainLoop (m : Mem) (src : Span) : Nat → Nat → Bool → Option Nat
  | 0, size, _ => some size
  | fuel + 1, size, required =>
      match domainLabel m src (src.len - size) size required with
      | none => none
      | some (size, _) =>
          if size < src.len && m (src.start + size) == 45 then none
          else if size == src.len || m (src.start + size) != 46 then some size
          else domainLoop m src fuel (size + 1) true

def domain (m : Mem) (src : Span) : Option BufferedResult :=
  match domainLoop m src (src.len + 1) 0 true with
  | none => none
  | some size => sized m src size domainMaxSize

def atDomain (m : Mem) (src : Span) : Option BufferedResult :=
  if !starts m src (· == 64) then none else domain m (src.advance 1)

/-- The further domains of a source route. -/
def aDLLoop (m : Mem) : Nat → Span → Option Span
  | 0, src => some src
  | fuel + 1, src =>
      if starts m src (· == 44) then
        match atDomain m (src.advance 1) with
        | none => none
        | some result => aDLLoop m fuel result.rest
      else some src

/-- The source route. Its absence is no failure. -/
def aDL (m : Mem) (src : Span) : Option Result :=
  match atDomain m src with
  | none => some ⟨.null, src⟩
  | some result =>
      match aDLLoop m src.len result.rest with
      | none => none
      | some src => if !starts m src (· == 58) then none else some ⟨.null, src.advance 1⟩

/-- `mailbox` does not ask whether the source route failed: a malformed result has
the null span as its rest, and the local part is looked for there. -/
def mailbox (m : Mem) (base : Span) : Option MailboxResult :=
  let src := match aDL m base with
    | none => Span.null
    | some result => result.rest
  match localPart m src with
  | none => none
  | some localPart =>
      if !starts m localPart.rest (· == 64) then none
      else
        match domain m (localPart.rest.advance 1) with
        | none => none
        | some domain => some ⟨⟨base.upTo domain.rest, domain.rest⟩, localPart, domain⟩

def path (m : Mem) (base : Span) : Option PartResult :=
  if !starts m base (· == 60) then none
  else
    match mailbox m (base.advance 1) with
    | none => none
    | some result =>
        if !starts m result.rest (· == 62) then none
        else some ⟨⟨base.upTo (result.rest.advance 1), result.rest.advance 1⟩, result⟩

def reversePath (m : Mem) (base : Span) : Option PartResult :=
  if !starts m base (· == 60) then none
  else
    let src := base.advance 1
    if src.len == 0 then none
    else if m src.start == 62 then
      some ⟨⟨base.upTo (src.advance 1), src.advance 1⟩, .null⟩
    else
      match mailbox m src with
      | none => none
      | some result =>
          if !starts m result.rest (· == 62) then none
          else some ⟨⟨base.upTo (result.rest.advance 1), result.rest.advance 1⟩, result⟩

def isKeywordChar (c : UInt8) : Bool := isalnum c || c == 45

def esmtpKeyword (m : Mem) (src : Span) : Option Result :=
  if !starts m src isalnum then none
  else
    let rest := skipWhile m isKeywordChar src.len (src.advance 1)
    some ⟨src.upTo rest, rest⟩

def esmtpValue (m : Mem) (src : Span) : Option Result :=
  if !starts m src (isestmpvalue <| schar ·) then none
  else
    let rest := skipWhile m (isestmpvalue <| schar ·) src.len (src.advance 1)
    some ⟨src.upTo rest, rest⟩

def esmtpParam (m : Mem) (base : Span) : Option EsmtpParamResult :=
  match esmtpKeyword m base with
  | none => none
  | some key =>
      if !starts m key.rest (· == 61) then none
      else
        match esmtpValue m (key.rest.advance 1) with
        | none => none
        | some value => some ⟨⟨base.upTo value.rest, value.rest⟩, key, value⟩

/-- `std::string(local_part.body.begin(), domain.body.end())`. -/
def MailboxResult.text (m : Mem) (r : MailboxResult) : Bytes :=
  m.read r.localPart.body.start
    (r.domain.body.start + r.domain.body.len - r.localPart.body.start)

end Ervan.Parse
