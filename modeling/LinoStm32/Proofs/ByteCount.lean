/-
Byte accounting of the transport: exactly when every call reports what
the UART moved.

Neither call reads a count out of the HAL. `write` returns `len` whatever
the HAL returned, `read` returns `len` or 0 by the status alone, and `len`
itself is narrowed on the way to the HAL. So a call reports the truth
when everything was moved, or, for a read, when nothing was
(`write_clean_iff`, `read_clean_iff`); what a read drops on a timeout is
lost to the stream its reads assemble.
-/
import LinoStm32.Transport
import LinoStm32.Lib.Window

namespace LinoStm32

namespace Transfer

-- ================================================================ the runs

/-- A call on the transport: a write of a buffer, or a read into one. -/
inductive Call
  | write (buf : List Byte)
  | read (buf : List Byte) (timeout : Int)

/-- The number of bytes of its buffer. -/
def Call.len : Call → Nat
  | .write buf => buf.length
  | .read buf _ => buf.length

/-- The call made. -/
def Call.exec (H : UartHal) (s : H.State) : Call → H.State × Transfer
  | .write buf => cubemxTransportWrite H s buf buf.length
  | .read buf timeout => cubemxTransportRead H s buf.length timeout

/-- Calls in sequence on one UART. -/
def machine (H : UartHal) : Lib.Mealy H.State Call Transfer :=
  ⟨fun s c => c.exec H s⟩

/-- The bytes a read reports: those of its buffer it returns the number
of. -/
def reported : Call × Transfer → List Byte
  | (.write _, _) => []
  | (.read buf _, tr) => (tr.buffer buf).take tr.returned

/-- The bytes a read took off the UART. -/
def consumed : Call × Transfer → List Byte
  | (.write _, _) => []
  | (.read _ _, tr) => tr.moved

/-- The transport accounts for every byte of a run: each call returns the
number of bytes that moved, the reads report the stream they consumed,
and no write that failed is reported as complete. -/
structure Accounts (h : List (Call × Transfer)) : Prop where
  returned : ∀ e ∈ h, e.2.returned = e.2.moved.length
  stream : h.flatMap reported = h.flatMap consumed
  complete : ∀ buf tr, (.write buf, tr) ∈ h → tr.status ≠ .ok →
    buf ≠ [] → tr.returned ≠ buf.length

/-- One call accounts for its bytes. -/
def Honest : Call × Transfer → Prop
  | (.write buf, tr) => tr.returned = tr.moved.length
      ∧ (tr.status ≠ .ok → buf ≠ [] → tr.returned ≠ buf.length)
  | (.read _ _, tr) => tr.returned = tr.moved.length

/-- A call that can be reported as it is: the HAL moved all of a buffer
whose length it could be told; or there was nothing to write, or nothing
was read. -/
def Clean : Call × Transfer → Prop
  | (.write buf, tr) => buf = [] ∨ (tr.status = .ok ∧ buf.length < 2 ^ 16)
  | (.read buf _, tr) => (tr.status = .ok ∧ buf.length < 2 ^ 16)
      ∨ (tr.status ≠ .ok ∧ tr.moved = [])

/-- The part of a buffer the HAL is told of. -/
theorem length_take_halSize (buf : List Byte) :
    (buf.take (halSize buf.length)).length = halSize buf.length :=
  List.length_take_of_le (Nat.mod_le _ _)

/-- A length survives the narrowing exactly when it fits 16 bits. -/
theorem halSize_eq_iff (len : Nat) : halSize len = len ↔ len < 2 ^ 16 :=
  Nat.mod_eq_iff_lt (by decide)

section OneCall

variable {H : UartHal} (hH : H.Documented) (s : H.State)

include hH

/-- A write returns the number of bytes sent, and does not report a
failure as complete, exactly when it is clean. -/
theorem write_clean_iff (buf : List Byte) :
    let tr := (cubemxTransportWrite H s buf buf.length).2
    Honest (.write buf, tr) ↔ Clean (.write buf, tr) := by
  intro tr
  have hreturned : tr.returned = buf.length := rfl
  have hsent : tr.moved.length
      = (H.transmit s (buf.take (halSize buf.length)) 100).2.1 :=
    List.length_take_of_le (hH.transmit_le _ _ _)
  have hok : tr.status = .ok → tr.moved.length = halSize buf.length := by
    intro h
    rw [hsent, hH.transmit_ok _ _ _ h, length_take_halSize]
  constructor
  · rintro ⟨hcount, hcomplete⟩
    by_cases hstatus : tr.status = .ok
    · refine Or.inr ⟨hstatus, (halSize_eq_iff _).mp ?_⟩
      rw [← hok hstatus, ← hcount, hreturned]
    · left
      by_contra hne
      exact hcomplete hstatus hne hreturned
  · rintro (hnil | ⟨hstatus, hlt⟩)
    · subst hnil
      exact ⟨by simp [tr, cubemxTransportWrite], fun _ h => absurd rfl h⟩
    · refine ⟨?_, fun h => absurd hstatus h⟩
      rw [hok hstatus, hreturned, (halSize_eq_iff _).mpr hlt]

/-- A read returns the number of bytes delivered exactly when it is
clean. -/
theorem read_clean_iff (buf : List Byte) (timeout : Int) :
    let tr := (cubemxTransportRead H s buf.length timeout).2
    Honest (.read buf timeout, tr) ↔ Clean (.read buf timeout, tr) := by
  intro tr
  show tr.returned = tr.moved.length ↔ _
  have hok : tr.status = .ok → tr.moved.length = halSize buf.length :=
    hH.receive_ok _ _ _
  by_cases hstatus : tr.status = .ok
  · have hreturned : tr.returned = buf.length := if_pos hstatus
    rw [hreturned, hok hstatus, eq_comm, halSize_eq_iff]
    simp [Clean, hstatus]
  · have hreturned : tr.returned = 0 := if_neg hstatus
    rw [hreturned, eq_comm, List.length_eq_zero_iff]
    simp [Clean, hstatus]

end OneCall

/-- What a call returns when it accounts for its bytes. -/
theorem Honest.returned {e : Call × Transfer} (h : Honest e) :
    e.2.returned = e.2.moved.length := by
  obtain ⟨c, tr⟩ := e
  cases c with
  | write buf => exact h.1
  | read buf timeout => exact h

/-- A read that returns the number of bytes delivered reports those. -/
theorem reported_eq_consumed {e : Call × Transfer}
    (h : e.2.returned = e.2.moved.length) : reported e = consumed e := by
  obtain ⟨c, tr⟩ := e
  cases c with
  | write buf => rfl
  | read buf timeout =>
      show (tr.buffer buf).take tr.returned = tr.moved
      rw [h]
      exact List.take_left

/-- The transport accounts for a run when each call does for its own. -/
theorem accounts_iff_honest (h : List (Call × Transfer)) :
    Accounts h ↔ ∀ e ∈ h, Honest e := by
  constructor
  · rintro ⟨hreturned, -, hcomplete⟩ ⟨c, tr⟩ he
    cases c with
    | write buf => exact ⟨hreturned _ he, hcomplete buf tr he⟩
    | read buf timeout => exact hreturned _ he
  · intro hh
    refine ⟨fun e he => (hh e he).returned, ?_,
      fun buf tr he => (hh _ he).2⟩
    exact List.flatMap_congr fun e he =>
      reported_eq_consumed (hh e he).returned

/-- Over any calls on a UART that does what the HAL documents, the
transport accounts for every byte exactly when every call is clean. -/
theorem accounts_iff_clean {H : UartHal} (hH : H.Documented) (s : H.State)
    (calls : List Call) :
    Accounts ((machine H).transcript s calls)
      ↔ ∀ e ∈ (machine H).transcript s calls, Clean e := by
  rw [accounts_iff_honest]
  refine forall₂_congr fun e he => ?_
  obtain ⟨s', c, rfl⟩ := Lib.Mealy.exists_of_mem_transcript he
  cases c with
  | write buf => exact write_clean_iff hH s' buf
  | read buf timeout => exact read_clean_iff hH s' buf timeout

-- ================================================================ a UART

/-- A UART on which `room` more bytes go out before the line stalls, and
`arrived` are the bytes that come in. A call that cannot move its whole
size moves what it can and times out; one of size 0 is refused. -/
structure Line where
  room : Nat
  arrived : List Byte

/-- Its blocking calls. -/
def lineUart : UartHal where
  State := Line
  transmit l data _ :=
    if data.length = 0 then (.error, 0, l)
    else if data.length ≤ l.room then
      (.ok, data.length, { l with room := l.room - data.length })
    else (.timeout, l.room, { l with room := 0 })
  receive l size _ :=
    if size = 0 then (.error, [], l)
    else if size ≤ l.arrived.length then
      (.ok, l.arrived.take size, { l with arrived := l.arrived.drop size })
    else (.timeout, l.arrived, { l with arrived := [] })

theorem lineUart_documented : lineUart.Documented where
  transmit_le l data t := by
    simp only [lineUart]
    split_ifs
    · exact Nat.zero_le _
    · exact le_rfl
    · next h => exact (not_le.mp h).le
  transmit_ok l data t := by
    simp only [lineUart]
    split_ifs <;> simp
  receive_le l size t := by
    simp only [lineUart]
    split_ifs
    · exact Nat.zero_le _
    · exact List.length_take_le _ _
    · next h => exact (not_le.mp h).le
  receive_ok l size t := by
    simp only [lineUart]
    split_ifs
    · simp
    · exact fun _ => List.length_take_of_le ‹_›
    · simp

/-- The condition, on a line that takes four bytes and delivers two. -/
theorem accounts_iff_clean_line :
    Accounts ((machine lineUart).transcript ⟨4, [1, 2]⟩
        [.write [7, 8, 9], .read [0] 10, .read [0, 0] 10])
      ↔ ∀ e ∈ (machine lineUart).transcript ⟨4, [1, 2]⟩
          [.write [7, 8, 9], .read [0] 10, .read [0, 0] 10], Clean e :=
  accounts_iff_clean lineUart_documented _ _

/-- On that line a read of two bytes that finds one drops it, and a write
of three that sends one reports three. -/
theorem byte_lost :
    ¬ Accounts ((machine lineUart).transcript ⟨4, [1, 2]⟩
        [.write [7, 8, 9], .read [0] 10, .read [0, 0] 10])
      ∧ ¬ Accounts ((machine lineUart).transcript ⟨4, [1, 2]⟩
        [.write [7, 8, 9], .write [7, 8, 9]]) := by
  constructor
  · intro h
    exact absurd h.stream (by decide)
  · intro h
    exact absurd (h.returned _ (List.mem_cons_of_mem _
      (List.mem_singleton.mpr rfl))) (by decide)

end Transfer

end LinoStm32
