import EditHistory.Proofs.InPlace.Writer
import EditHistory.Proofs.InPlace.Reader

/-! Items that are written one after the other and read back. Three machines take items in: a list of
bits, the plain writer and the writer in place; two answer requests. Call by call they do the same, and
that carries over to all sequences of calls. -/
namespace EditHistory

/-- What a call writes, or a call reads. -/
inductive Item where
  | number (value width : Nat)
  | bit (b : Bool)
  | bytes (content : Bytes)
  | padding
deriving DecidableEq, Repr

inductive Request where
  | number (width : Nat)
  | bit
  | bytes (count : Nat)
  | padding
deriving DecidableEq, Repr

namespace Item

/-- The request that an item answers. -/
def request : Item → Request
  | .number _ width => .number width
  | .bit _ => .bit
  | .bytes content => .bytes content.length
  | .padding => .padding

/-- Why an item is refused. -/
def fault? : Item → Option BitError
  | .number value width =>
    if maxFieldBits < width then some (.widthTooLarge width)
    else if 1 <<< width ≤ value then some (.valueOverflow value width)
    else none
  | _ => none

/-- The bits of an item that is written behind so many bits. -/
def bits (length : Nat) : Item → List Bool
  | .number value width => Bits.ofNat value width
  | .bit b => [b]
  | .bytes content => Bits.ofBytes content
  | .padding => Bits.padding length

theorem bounds_of_fault? {value width : Nat} (h : (number value width).fault? = none) :
    width ≤ maxFieldBits ∧ value < 1 <<< width := by
  rw [fault?] at h
  split at h
  · cases h
  · rename_i hwidth
    split at h
    · cases h
    · rename_i hvalue
      exact ⟨Nat.le_of_not_lt hwidth, Nat.lt_of_not_le hvalue⟩

end Item

/-! ## The calls -/

/-- The list grows by the bits of an item that is not refused. -/
def Bits.put (bits : List Bool) (item : Item) : Except BitError (List Bool) :=
  match item.fault? with
  | some e => .error e
  | none => .ok (bits ++ item.bits bits.length)

def BitWriter.put (w : BitWriter) : Item → Except BitError BitWriter
  | .number value width => w.writeBits value width
  | .bit b => .ok (w.pushBit b)
  | .bytes content => .ok (w.writeBytes content)
  | .padding => .ok w.padToByte

def BitReader.take (r : BitReader) : Request → Except BitError (Item × BitReader)
  | .number width => (r.readBits width).map fun x => (.number x.1 width, x.2)
  | .bit => r.readBit.map fun x => (.bit x.1, x.2)
  | .bytes count => (r.readBytes count).map fun x => (.bytes x.1, x.2)
  | .padding => .ok (.padding, r.skipToByte)

namespace InPlace

def put : Item → InPlace Writer BitError Unit
  | .number value width => writeBits value width
  | .bit b => writeBit b
  | .bytes content => writeBytes content
  | .padding => padToByte

def take : Request → InPlace BitReader BitError Item
  | .number width => do return .number (← readBits width) width
  | .bit => do return .bit (← readBit)
  | .bytes count => do return .bytes (← readBytes count)
  | .padding => do
    skipToByte
    return .padding

end InPlace

/-- A machine that takes items in, and stays as it is where it refuses one. -/
def Machine.ofPut {σ : Type} (put : σ → Item → Except BitError σ) (position : σ → Nat) :
    Machine σ Item Item where
  call item := InPlace.step fun s => (put s item).map fun s => (item, s)
  position := position

def Bits.machine : Machine (List Bool) Item Item := .ofPut put List.length

def BitWriter.machine : Machine BitWriter Item Item := .ofPut put bitLength

def BitReader.machine : Machine BitReader Request Item where
  call request := InPlace.step (·.take request)
  position := position

def InPlace.writer : Machine InPlace.Writer Item Item where
  call item := do
    InPlace.put item
    return item
  position := InPlace.Writer.bitLength

def InPlace.reader : Machine BitReader Request Item where
  call := InPlace.take
  position := BitReader.position

/-- The answers with the positions behind them. -/
abbrev Log := List (Except BitError Item × Nat)

namespace Log

/-- What is left without the refusals. -/
def accepted (log : Log) : Log := log.filter fun x => x.1.isOk

/-- The requests for the items that were not refused. -/
def requests (log : Log) : List Request := log.filterMap fun x => x.1.toOption.map Item.request

end Log

/-! ## Writing -/

namespace Machine

variable {σ : Type} {put : σ → Item → Except BitError σ} {position : σ → Nat} {s s' : σ} {item : Item}

theorem ofPut_of_ok (h : put s item = .ok s') :
    (ofPut put position).call item s = some (.ok item, s') := by
  simp only [ofPut, InPlace.step, h]
  rfl

theorem ofPut_of_error {e : BitError} (h : put s item = .error e) :
    (ofPut put position).call item s = some (.error e, s) := by
  simp only [ofPut, InPlace.step, h]
  rfl

end Machine

namespace BitWriter

variable {w : BitWriter} {item : Item}

theorem put_of_fault {e : BitError} (h : item.fault? = some e) : w.put item = .error e := by
  cases item with
  | number value width =>
    rw [Item.fault?] at h
    rw [put, writeBits]
    split at h
    · rename_i hwidth
      rw [if_pos hwidth, Option.some.inj h]
    · rename_i hwidth
      split at h
      · rename_i hvalue
        rw [if_neg hwidth, if_pos hvalue, Option.some.inj h]
      · cases h
  | bit b => cases h
  | bytes content => cases h
  | padding => cases h

/-- An item that is not refused adds its bits. -/
theorem exists_put (h : item.fault? = none) :
    ∃ w', w.put item = .ok w' ∧ w'.bits = w.bits ++ item.bits w.bits.length := by
  cases item with
  | number value width =>
    obtain ⟨hwidth, hvalue⟩ := Item.bounds_of_fault? h
    exact w.bits_writeBits hwidth hvalue
  | bit b => exact ⟨w.pushBit b, rfl, bits_pushBit w b⟩
  | bytes content => exact ⟨w.writeBytes content, rfl, bits_writeBytes w content⟩
  | padding => exact ⟨w.padToByte, rfl, bits_padToByte w⟩

theorem bitLength_eq (w : BitWriter) : w.bitLength = w.bits.length := by
  simp [bitLength, bits]

end BitWriter

theorem Bits.machine_follows :
    Bits.machine.Follows BitWriter.machine (fun _ => True) BitWriter.bits where
  position_eq w := w.bitLength_eq.symm
  call_eq item w _ := by
    cases hfault : item.fault? with
    | some e =>
      have hput : Bits.put w.bits item = .error e := by rw [Bits.put, hfault]
      exact ⟨.error e, w, trivial, Machine.ofPut_of_error (BitWriter.put_of_fault hfault),
        Machine.ofPut_of_error hput⟩
    | none =>
      obtain ⟨w', hwrite, hbits⟩ := BitWriter.exists_put (w := w) hfault
      have hput : Bits.put w.bits item = .ok w'.bits := by rw [Bits.put, hfault, hbits]
      exact ⟨.ok item, w', trivial, Machine.ofPut_of_ok hwrite, Machine.ofPut_of_ok hput⟩

namespace InPlace

theorem put_of_ok {w w' : BitWriter} {item : Item} (h : w.put item = .ok w') :
    put item (.ofPlain w) = some (.ok (), .ofPlain w') := by
  cases item with
  | number value width => exact writeBits_of_ok h
  | bit b =>
    obtain rfl := Except.ok.inj h
    exact writeBit_eq w b
  | bytes content =>
    obtain rfl := Except.ok.inj h
    exact writeBytes_eq w content
  | padding =>
    obtain rfl := Except.ok.inj h
    exact padToByte_eq w

theorem put_of_error {w : BitWriter} {item : Item} {e : BitError} (h : w.put item = .error e) :
    put item (.ofPlain w) = some (.error e, .ofPlain w) := by
  cases item with
  | number value width => exact writeBits_of_error h
  | bit b => cases h
  | bytes content => cases h
  | padding => cases h

theorem writer_follows : writer.Follows BitWriter.machine (fun _ => True) Writer.ofPlain where
  position_eq _ := rfl
  call_eq item w _ := by
    cases hput : w.put item with
    | error e =>
      exact ⟨.error e, w, trivial, Machine.ofPut_of_error hput, bind_of_error (put_of_error hput) _⟩
    | ok w' =>
      exact ⟨.ok item, w', trivial, Machine.ofPut_of_ok hput, bind_of_ok (put_of_ok hput) _⟩

/-- A refusal leaves the writer as it was. -/
theorem eq_of_put_error {w : BitWriter} {item : Item} {e : BitError} {s : Writer}
    (h : writer.call item (.ofPlain w) = some (.error e, s)) : s = .ofPlain w := by
  cases hput : w.put item with
  | error e' =>
    have hcall : writer.call item (.ofPlain w) = _ := bind_of_error (put_of_error hput) _
    rw [hcall] at h
    exact (Prod.mk.inj (Option.some.inj h)).2.symm
  | ok w' =>
    have hcall : writer.call item (.ofPlain w) = _ := bind_of_ok (put_of_ok hput) _
    rw [hcall] at h
    cases (Prod.mk.inj (Option.some.inj h)).1

/-! ## Reading -/

theorem take_eq {r : BitReader} (hinside : r.Inside) (request : Request) :
    take request r = step (·.take request) r := by
  cases request with
  | number width => exact bind_pure_of_step (readBits_eq hinside width) _
  | bit => exact bind_pure_of_step (readBit_eq hinside) _
  | bytes count => exact bind_pure_of_step (readBytes_eq hinside count) _
  | padding => exact bind_of_ok (skipToByte_eq r) _

end InPlace

namespace BitReader

variable {r r' : BitReader} {read rest : List Bool} {request : Request} {item : Item}

theorem call_of_ok (h : r.take request = .ok (item, r')) :
    machine.call request r = some (.ok item, r') := by
  simp only [machine, InPlace.step, h]

theorem call_of_error {e : BitError} (h : r.take request = .error e) :
    machine.call request r = some (.error e, r) := by
  simp only [machine, InPlace.step, h]

theorem inside_take (hinside : r.Inside) (h : r.take request = .ok (item, r')) : r'.Inside := by
  cases request with
  | number width =>
    obtain ⟨x, hread, hx⟩ := map_eq_ok.mp h
    obtain ⟨-, rfl⟩ := Prod.mk.inj hx
    exact (steps_readBits hread).1.inside hinside
  | bit =>
    obtain ⟨x, hread, hx⟩ := map_eq_ok.mp h
    obtain ⟨-, rfl⟩ := Prod.mk.inj hx
    exact (steps_readBit hread).inside hinside
  | bytes count =>
    obtain ⟨x, hread, hx⟩ := map_eq_ok.mp h
    obtain ⟨-, rfl⟩ := Prod.mk.inj hx
    exact (steps_readBytes hread).1.inside hinside
  | padding =>
    obtain ⟨-, rfl⟩ := Prod.mk.inj (Except.ok.inj h)
    exact r.steps_skipToByte.inside hinside

/-- What comes next is read as the item that was written. -/
theorem Stands.take (h : r.Stands read (item.bits read.length ++ rest))
    (hfits : item.fault? = none) :
    ∃ r', r.take item.request = .ok (item, r') ∧ r'.Stands (read ++ item.bits read.length) rest := by
  cases item with
  | number value width =>
    obtain ⟨hwidth, hvalue⟩ := Item.bounds_of_fault? hfits
    obtain ⟨r', hread, hstands⟩ := Stands.readBits h hwidth hvalue
    exact ⟨r', by rw [Item.request, BitReader.take, hread]; rfl, hstands⟩
  | bit b =>
    obtain ⟨r', hread, hstands⟩ := Stands.readBit h
    exact ⟨r', by rw [Item.request, BitReader.take, hread]; rfl, hstands⟩
  | bytes content =>
    obtain ⟨r', hread, hstands⟩ := h.readBytes
    exact ⟨r', by rw [Item.request, BitReader.take, hread]; rfl, hstands⟩
  | padding => exact ⟨r.skipToByte, rfl, h.skipToByte⟩

end BitReader

theorem InPlace.reader_follows :
    InPlace.reader.Follows BitReader.machine BitReader.Inside id where
  position_eq _ := rfl
  call_eq request r hinside := by
    have hcall : reader.call request r = BitReader.machine.call request r := take_eq hinside request
    cases htake : r.take request with
    | error e =>
      have hplain := BitReader.call_of_error htake
      exact ⟨.error e, r, hinside, hplain, hcall.trans hplain⟩
    | ok x =>
      have hplain := BitReader.call_of_ok htake
      exact ⟨.ok x.1, x.2, BitReader.inside_take hinside htake, hplain, hcall.trans hplain⟩

/-! ## Reading what was written -/

/-- A writer goes through items, and a reader that stands where the writer stood goes through those that
were not refused. -/
theorem BitWriter.exists_log (items : List Item) (w : BitWriter) :
    ∃ (log : Log) (last : BitWriter) (written : List Bool),
      BitWriter.machine.log items w = some (log, last) ∧ last.bits = w.bits ++ written ∧
      ∀ {r : BitReader} {rest : List Bool}, r.Stands w.bits (written ++ rest) →
        ∃ r', BitReader.machine.log log.requests r = some (log.accepted, r') ∧
          r'.Stands last.bits rest := by
  induction items generalizing w with
  | nil => exact ⟨[], w, [], rfl, (List.append_nil _).symm, fun {r} _ h => ⟨r, rfl, h⟩⟩
  | cons item items ih =>
    cases hfault : item.fault? with
    | some e =>
      have hcall : BitWriter.machine.call item w = _ := Machine.ofPut_of_error (put_of_fault hfault)
      obtain ⟨log, last, written, hlog, hbits, hread⟩ := ih w
      refine ⟨(.error e, w.bitLength) :: log, last, written, ?_, hbits, hread⟩
      rw [Machine.log_cons hcall, hlog]
      rfl
    | none =>
      obtain ⟨w', hput, hitem⟩ := exists_put (w := w) hfault
      have hcall : BitWriter.machine.call item w = _ := Machine.ofPut_of_ok hput
      obtain ⟨log, last, written, hlog, hbits, hread⟩ := ih w'
      refine ⟨(.ok item, w'.bitLength) :: log, last, item.bits w.bits.length ++ written, ?_, ?_, ?_⟩
      · rw [Machine.log_cons hcall, hlog]
        rfl
      · rw [hbits, hitem, List.append_assoc]
      · intro r rest h
        rw [List.append_assoc] at h
        obtain ⟨r', htake, hstands⟩ := h.take hfault
        rw [← hitem] at hstands
        obtain ⟨r'', hlog', hstands'⟩ := hread hstands
        have hcall' := BitReader.call_of_ok htake
        have hposition : r'.position = w'.bitLength := by
          rw [hstands.position_eq, bitLength_eq]
        refine ⟨r'', ?_, hstands'⟩
        have hrequests : Log.requests ((.ok item, w'.bitLength) :: log) =
            item.request :: log.requests := rfl
        rw [hrequests, Machine.log_cons hcall', hlog']
        show some ((.ok item, r'.position) :: log.accepted, r'') = _
        rw [hposition]
        rfl

/-- Both writers go through the items to the same bits, with the answers and the lengths of the list to
which the items are added. -/
structure Written (items : List Item) (log : Log) (w : BitWriter) : Prop where
  listed : Bits.machine.log items [] = some (log, w.bits)
  plain : BitWriter.machine.log items .empty = some (log, w)
  inPlace : InPlace.writer.log items .empty = some (log, .ofPlain w)
  bits_eq : (InPlace.Writer.ofPlain w).bits = w.bits

/-- Both readers answer the requests from bytes in the same way, and come to the same position. -/
structure Answered (bytes : Bytes) (requests : List Request) (log : Log) (r : BitReader) : Prop where
  plain : BitReader.machine.log requests (.ofBytes bytes) = some (log, r)
  inPlace : InPlace.reader.log requests (.ofBytes bytes) = some (log, r)
  inside : r.Inside

theorem exists_answered (bytes : Bytes) (requests : List Request) :
    ∃ log r, Answered bytes requests log r := by
  obtain ⟨log, r, hinside, hplain, hinPlace⟩ :=
    InPlace.reader_follows.exists_log requests (BitReader.inside_ofBytes bytes)
  exact ⟨log, r, hplain, hinPlace, hinside⟩

theorem exists_written (items : List Item) :
    ∃ log w, Written items log w ∧
      ∃ r, Answered w.finish log.requests log.accepted r ∧ r.atPadding = true := by
  obtain ⟨log, w, written, hlog, hbits, hread⟩ := BitWriter.exists_log items .empty
  rw [BitWriter.bits_empty, List.nil_append] at hbits
  have hstart : (BitReader.ofBytes w.finish).Stands BitWriter.empty.bits
      (written ++ Bits.padding w.bits.length) := by
    refine ⟨?_, rfl⟩
    rw [BitWriter.bits_empty, List.nil_append, ← hbits]
    exact w.ofBytes_finish
  obtain ⟨r, hlog', hstands⟩ := hread hstart
  obtain ⟨log', r', hanswered⟩ := exists_answered w.finish log.requests
  obtain ⟨rfl, rfl⟩ := Prod.mk.inj (Option.some.inj (hanswered.plain.symm.trans hlog'))
  refine ⟨log, w, ⟨?_, hlog, ?_, InPlace.bits_ofPlain w⟩, r', hanswered, hstands.atPadding⟩
  · exact Bits.machine_follows.log_eq trivial hlog
  · exact InPlace.writer_follows.log_eq trivial hlog

/-- A writer stands for the list of the bits written, an item that it refuses changes nothing, and finished
it is that list filled up with zeros. What was not refused is read back, at the positions at which it was
written, and behind it is nothing but padding. On any bytes, a read that fails leaves the reader as it
was. -/
theorem InPlace.refines_bits (items : List Item) (bytes : Bytes) (requests : List Request) :
    (∃ log w, Written items log w ∧
      (∀ item e s, writer.call item (.ofPlain w) = some (.error e, s) → s = .ofPlain w) ∧
      (Writer.ofPlain w).finish = w.finish ∧ Bits.ofBytes w.finish = Bits.padded w.bits ∧
      ∃ r, Answered w.finish log.requests log.accepted r ∧
        InPlace.atPadding r = some (.ok true, r) ∧ r.atPadding = true) ∧
    ∃ log r, Answered bytes requests log r ∧
      ∀ request e r', reader.call request r = some (.error e, r') → r' = r := by
  constructor
  · obtain ⟨log, w, hwritten, r, hanswered, hpadding⟩ := exists_written items
    have hpadding' := atPadding_eq hanswered.inside
    rw [hpadding] at hpadding'
    exact ⟨log, w, hwritten, fun item e s => eq_of_put_error, finish_ofPlain w, w.ofBytes_finish, r,
      hanswered, hpadding', hpadding⟩
  · obtain ⟨log, r, hanswered⟩ := exists_answered bytes requests
    refine ⟨log, r, hanswered, fun request e r' h => ?_⟩
    have hcall : reader.call request r = step (·.take request) r := take_eq hanswered.inside request
    exact eq_of_step_error (hcall.symm.trans h)

/-- The bits 101, a refusal, the byte 0x61 across a byte boundary, and what fills the second byte up, all of
it read back; and behind five bits of another byte a read of four, which there are not. -/
theorem InPlace.refines_bits_behind_five :
    let items : List Item := [.number 5 3, .number 8 3, .bytes [0x61], .padding]
    let log : Log := [(.ok (.number 5 3), 3), (.error (.valueOverflow 8 3), 3),
      (.ok (.bytes [0x61]), 11), (.ok .padding, 16)]
    let last : Writer := ⟨#[0xAC, 0x20], 0, 0⟩
    (writer.log items .empty = some (log, last) ∧
      (∃ s, writer.call (.number 8 3) last = some (.error (.valueOverflow 8 3), s) ∧ s = last) ∧
      last.finish = [0xAC, 0x20] ∧
      (∃ bits, Bits.machine.log items [] = some (log, bits) ∧
        Bits.ofBytes [0xAC, 0x20] = Bits.padded bits) ∧
      ∃ r, Answered [0xAC, 0x20] [.number 3, .bytes 1, .padding] log.accepted r ∧
        atPadding r = some (.ok true, r)) ∧
    ∃ r r', reader.log [.number 5] (.ofBytes [0xFF]) = some ([(.ok (.number 31 5), 5)], r) ∧
      reader.call (.number 4) r = some (.error (.endOfStream 4 3), r') ∧ r' = r := by
  intro items log last
  obtain ⟨⟨log', w, hwritten, hrefuses, hfinish, hpadded, r, hanswered, hpadding, -⟩, log'', r', hread,
    hkeeps⟩ := refines_bits items [0xFF] [.number 5]
  have hlog : writer.log items .empty = some (log, last) := rfl
  obtain ⟨rfl, hlast⟩ := Prod.mk.inj (Option.some.inj (hwritten.inPlace.symm.trans hlog))
  have hrefused : writer.call (.number 8 3) last = some (.error (.valueOverflow 8 3), last) := rfl
  rw [hlast] at hrefuses hfinish
  have hbytes : w.finish = [0xAC, 0x20] := hfinish.symm
  rw [hbytes] at hpadded hanswered
  have hfive : reader.log [.number 5] (.ofBytes [0xFF]) =
      some ([(.ok (.number 31 5), 5)], ⟨#[0xFF], 5⟩) := rfl
  obtain ⟨-, rfl⟩ := Prod.mk.inj (Option.some.inj (hread.inPlace.symm.trans hfive))
  have hfour : reader.call (.number 4) ⟨#[0xFF], 5⟩ =
      some (.error (.endOfStream 4 3), ⟨#[0xFF], 5⟩) := rfl
  exact ⟨⟨hlog, ⟨last, hrefused, hrefuses _ _ _ hrefused⟩, hfinish.trans hbytes,
    ⟨w.bits, hwritten.listed, hpadded⟩, r, hanswered, hpadding⟩, _, _, hfive, hfour, hkeeps _ _ _ hfour⟩

end EditHistory
