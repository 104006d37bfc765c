import OqsBind.Dns.NameLabels
import OqsBind.Dns.NameRead

/-! Names as text: `dns_name_totext` and `dns_name_fromtext` (`lib/dns/name.c`). The text is not filtered. -/

namespace OqsBind.Dns
open Isc

def NAME_MAXTEXT : Nat := 1023

def NAME_FORMATSIZE : Nat := NAME_MAXTEXT + 1

def NAME_DOWNCASE : Nat := 0x0001

def NAME_OMITFINALDOT : Nat := 0x01

def NAME_PRINCIPAL : Nat := 0x02

/-- `insist` stands for a failed `INSIST`, a `FATAL_ERROR`, or an access outside of what is there. -/
inductive TextError where
  | emptylabel
  | nospace
  | labeltoolong
  | badlabeltype
  | badescape
  | unexpectedend
  | insist
deriving DecidableEq, Repr

/-- The text of an octet of a label. -/
def octetText (principal : Bool) (c : UInt8) : Bytes :=
  if ¬ principal ∧ c ∈ [0x40, 0x24] ∨ c ∈ [0x22, 0x28, 0x29, 0x2e, 0x3b, 0x5c] then [0x5c, c]
  else if 0x20 < c ∧ c < 0x7f then [c]
  else [0x5c, 0x30 + c / 100 % 10, 0x30 + c / 10 % 10, 0x30 + c % 10]

def totextLabel (principal : Bool) : (label : Bytes) → (trem : Nat) → (tdata : Bytes) → Except TextError (Nat × Bytes)
  | [], trem, tdata => .ok (trem, tdata)
  | c :: label, trem, tdata =>
    let text := octetText principal c
    if trem < text.length then .error .nospace
    else totextLabel principal label (trem - text.length) (tdata ++ text)

/-- What the loop of `dns_name_totext` leaves. -/
structure Totext where
  nlen : Nat
  trem : Nat
  tdata : Bytes
  sawRoot : Bool
deriving DecidableEq, Repr

/-- The loop over the labels of a name. -/
def totextLoop (principal : Bool) : (labels : Nat) → (ndata : Bytes) → (nlen trem : Nat) → (tdata : Bytes) →
    Except TextError Totext
  | 0, _, nlen, trem, tdata => .ok ⟨nlen, trem, tdata, false⟩
  | labels + 1, ndata, nlen, trem, tdata =>
    if nlen > 0 ∧ trem > 0 then
      match ndata with
      | [] => .error .insist
      | count :: ndata =>
        let nlen := nlen - 1
        if count.toNat = 0 then .ok ⟨nlen, trem, tdata, true⟩
        else if count.toNat > NAME_LABELLEN ∨ nlen < count.toNat then .error .insist
        else do
          let (trem, tdata) ← totextLabel principal (ndata.take count.toNat) trem tdata
          -- as if the name were absolute; the last dot is taken back later
          if trem = 0 then .error .nospace
          else totextLoop principal labels (ndata.drop count.toNat) (nlen - count.toNat) (trem - 1) (tdata ++ [0x2e])
    else .ok ⟨nlen, trem, tdata, false⟩

/-- The text that `dns_name_totext` writes with `trem` octets of room. -/
def Name.totextData (n : Name) (options trem : Nat) : Except TextError Bytes :=
  if n.nlabels = 0 ∧ n.length = 0 then
    if trem = 0 then .error .nospace else .ok [0x40]
  else if n.length = 1 ∧ n.nlabels = 1 ∧ n.ndata.head? = some 0 then
    if trem = 0 then .error .nospace else .ok [0x2e]
  else do
    let r ← totextLoop (options &&& NAME_PRINCIPAL ≠ 0) n.nlabels n.ndata n.length trem []
    if r.nlen ≠ 0 ∧ r.trem = 0 then .error .nospace
    else .ok (if ¬ r.sawRoot ∨ options &&& NAME_OMITFINALDOT ≠ 0 then r.tdata.dropLast else r.tdata)

/-- `dns_name_totext`. -/
def Name.totext (n : Name) (options : Nat) (target : Buffer) : Except TextError Buffer := do
  let text ← n.totextData options target.availablelength
  match target.add text with
  | none => .error .insist
  | some target => .ok target

/-- `ft_state`. -/
inductive FtState where
  | init
  | start
  | ordinary
  | initialescape
  | escape
  | escdecimal
  | at_
deriving DecidableEq, Repr

/-- The variables of `dns_name_fromtext`. A length octet is zero until it is known, and `label` is its place. -/
structure Ft where
  state : FtState
  ndata : Bytes
  label : Option Nat
  value : Nat
  count : Nat
  digits : Nat
  nrem : Nat
  nused : Nat
  labels : Nat
  offsets : List Nat
  done : Bool
deriving DecidableEq, Repr

namespace Ft

/-- The state machine at its start. What the table of offsets holds apart from its first entry does not matter. -/
def new (nrem : Nat) : Ft where
  state := .init
  ndata := []
  label := none
  value := 0
  count := 0
  digits := 0
  nrem := nrem
  nused := 0
  labels := 0
  offsets := (List.replicate NAME_MAXLABELS 0).set 0 0
  done := false

/-- An octet of the target. -/
def put (s : Ft) (c : UInt8) : Ft := { s with ndata := s.ndata ++ [c], nrem := s.nrem - 1, nused := s.nused + 1 }

/-- An octet of a label. -/
def octet (downcase : Bool) (c : UInt8) (s : Ft) : Except TextError Ft :=
  if s.count ≥ NAME_LABELLEN then .error .labeltoolong
  else .ok { s.put (if downcase then tolower c else c) with count := s.count + 1, state := .ordinary }

/-- The end of a label, where the next one would start. -/
def endLabel (s : Ft) : Except TextError Ft :=
  match s.label with
  | none => .error .insist
  | some label =>
    if s.labels + 1 < NAME_MAXLABELS then
      .ok { s with
        ndata := s.ndata.set label (UInt8.ofNat s.count)
        labels := s.labels + 1
        offsets := s.offsets.set (s.labels + 1) s.nused }
    else .error .insist

/-- `case ft_ordinary`. -/
def ordinary (downcase : Bool) (c : UInt8) (tlen : Nat) (s : Ft) : Except TextError Ft :=
  if c = 0x2e then
    if s.count = 0 then .error .emptylabel
    else do
      let s ← s.endLabel
      .ok (if tlen = 0 then { s.put 0 with labels := s.labels + 1, done := true, state := .start }
        else { s with state := .start })
  else if c = 0x5c then .ok { s with state := .escape }
  else s.octet downcase c

/-- The place of a length octet, for a new label. -/
def opened (s : Ft) : Ft := { s.put 0 with label := some s.ndata.length, count := 0, state := .ordinary }

/-- `case ft_start`. -/
def start (downcase : Bool) (c : UInt8) (tlen : Nat) (s : Ft) : Except TextError Ft :=
  if c = 0x5c then .ok { s.opened with state := .initialescape }
  else if s.opened.nrem = 0 then .error .nospace
  else s.opened.ordinary downcase c tlen

/-- `case ft_init`. -/
def init (downcase : Bool) (c : UInt8) (tlen : Nat) (s : Ft) : Except TextError Ft :=
  if c = 0x2e then
    if tlen ≠ 0 then .error .emptylabel
    else .ok { s.put 0 with labels := s.labels + 1, done := true }
  else if c = 0x40 ∧ tlen = 0 then .ok { s with state := .at_ }
  else s.start downcase c tlen

def isdigit (c : UInt8) : Bool := 0x30 ≤ c && c ≤ 0x39

/-- `case ft_escdecimal`. -/
def escdecimal (downcase : Bool) (c : UInt8) (s : Ft) : Except TextError Ft :=
  if ¬ isdigit c then .error .badescape
  else
    let s := { s with value := 10 * s.value + (c.toNat - 0x30), digits := s.digits + 1 }
    if s.digits = 3 then
      if s.value > 255 then .error .badescape
      else s.octet downcase (UInt8.ofNat s.value)
    else .ok s

/-- `case ft_escape`. -/
def escape (downcase : Bool) (c : UInt8) (s : Ft) : Except TextError Ft :=
  if ¬ isdigit c then s.octet downcase c
  else escdecimal downcase c { s with digits := 0, value := 0, state := .escdecimal }

/-- `case ft_initialescape`. A bitstring label is refused. -/
def initialescape (downcase : Bool) (c : UInt8) (s : Ft) : Except TextError Ft :=
  if c = 0x5b then .error .badlabeltype else escape downcase c { s with state := .escape }

/-- One turn of the loop, with `tlen` octets of text behind `c`. -/
def step (downcase : Bool) (c : UInt8) (tlen : Nat) (s : Ft) : Except TextError Ft :=
  match s.state with
  | .init => s.init downcase c tlen
  | .start => s.start downcase c tlen
  | .ordinary => s.ordinary downcase c tlen
  | .initialescape => s.initialescape downcase c
  | .escape => s.escape downcase c
  | .escdecimal => s.escdecimal downcase c
  | .at_ => .error .insist

/-- The loop of `dns_name_fromtext`, and the text that it leaves. -/
def loop (downcase : Bool) : (text : Bytes) → Ft → Except TextError (Bytes × Ft)
  | [], s => .ok ([], s)
  | c :: text, s =>
    if s.nrem > 0 ∧ ¬ s.done then do
      let s ← s.step downcase c text.length
      loop downcase text s
    else .ok (c :: text, s)

/-- The last label, if one is being read. -/
def lastLabel (s : Ft) : Except TextError Ft :=
  if s.state = .ordinary then if s.count = 0 then .error .insist else s.endLabel
  else .ok s

/-- The variables after the copy of a label of the origin. -/
def copied (downcase : Bool) (n2 : UInt8) (octets : Bytes) (s : Ft) : Ft :=
  { s with
    ndata := s.ndata ++ n2 :: octets.map fun c => if downcase then tolower c else c
    nused := s.nused + (n2.toNat + 1)
    labels := s.labels + 1 }

/-- The loop over the labels of the origin. -/
def appendLoop (downcase : Bool) (n1 : Nat) (label : Bytes) (s : Ft) : Except TextError Ft :=
  if n1 = 0 then .ok s
  else
    match label with
    | [] => .error .insist
    | n2 :: label =>
      if n2.toNat > NAME_LABELLEN then .error .insist
      else
        let s := s.copied downcase n2 (label.take n2.toNat)
        let n1 := n1 - (n2.toNat + 1)
        if n1 > 0 then
          if s.labels < NAME_MAXLABELS then
            appendLoop downcase n1 (label.drop n2.toNat) { s with offsets := s.offsets.set s.labels s.nused }
          else .error .insist
        else .ok s
termination_by label.length
decreasing_by
  rw [List.length_drop, List.length_cons]
  omega

/-- The origin, after the text. -/
def append (downcase : Bool) (origin : Option Name) (s : Ft) : Except TextError (Ft × Bool) :=
  match origin with
  | none => .ok (s, false)
  | some o =>
    if s.nrem < o.length then .error .nospace
    else do
      let s ← appendLoop downcase o.length o.ndata { s with nrem := s.nrem - o.length }
      .ok (s, o.absolute)

def finish (downcase : Bool) (origin : Option Name) (tlen : Nat) (s : Ft) : Except TextError (Ft × Bool) :=
  if s.done then .ok (s, true)
  else if s.nrem = 0 then .error .nospace
  else if tlen ≠ 0 then .error .insist
  else if s.state ≠ .ordinary ∧ s.state ≠ .at_ then .error .unexpectedend
  else do
    let s ← s.lastLabel
    s.append downcase origin

end Ft

/-- A name read from text, and how much of the text was used. -/
structure Fromtext where
  ndata : Bytes
  length : Nat
  labels : Nat
  offsets : List Nat
  absolute : Bool
  tused : Nat
deriving DecidableEq, Repr

/-- `dns_name_fromtext`, with `available` octets of room in the target. -/
def fromtext (text : Bytes) (origin : Option Name) (options available : Nat) : Except TextError Fromtext := do
  let downcase : Bool := options &&& NAME_DOWNCASE ≠ 0
  let (left, s) ← Ft.loop downcase text (Ft.new (min NAME_MAXWIRE available))
  let (s, absolute) ← s.finish downcase origin left.length
  .ok ⟨s.ndata, s.nused, s.labels, s.offsets, absolute, text.length - left.length⟩

/-- What `dns_name_fromtext` leaves behind. -/
structure FromtextCall where
  result : Except TextError Unit
  name : RawName
  source : Source
  target : Buffer

/-- A call of `dns_name_fromtext`; `none` is an assertion that fails. -/
def RawName.fromtext (name : RawName) (source : Source) (origin : Option Name) (options : Nat) (target : Buffer) :
    Option FromtextCall :=
  match Dns.fromtext (source.used.drop source.current) origin options target.availablelength with
  | .error .insist => none
  | .error e => some ⟨.error e, name.makeEmpty, source, target⟩
  | .ok r => do
    let source ← source.forward r.tused
    let target ← target.add r.ndata
    some ⟨.ok (), ⟨r.ndata, r.length, r.labels, r.absolute, name.offsets.map fun _ => r.offsets.take r.labels⟩, source,
      target⟩

end OqsBind.Dns
