import Ervan.Common.Scanned
import Ervan.Library.Splitting

/-!
# The terminators that `join` reports

Any terminator and any buffer that holds it. `join` reports every terminator that its window
shows, also one that shares bytes with the one before it, since the window is not cleared after
a match. The records are those of the stream exactly when no two terminators overlap and the
counter tells their lengths right.
-/

namespace Ervan

open Framing

/-- A terminator that has been reported: how many bytes of the stream it ends behind, and the
record in front of it, unless it is out of range. -/
structure Report where
  position : Nat
  record : Option Bytes
  deriving DecidableEq, Repr

/-- What a call of `join` tells, when it has read the stream up to this position. -/
def JoinResult.report {cap win : Nat} (r : JoinResult) (b : Buffer cap win) (position : Nat) :
    List Report :=
  match r.sp with
  | some len => [⟨position, some (b.mem.read 0 len)⟩]
  | none => if r.ec then [⟨position, none⟩] else []

/-- Successive calls of `join`, each on what the call before has left of the chunk, or on the next
chunk. -/
def joinCalls {cap win : Nat} (terminator : Bytes) :
    Nat → Buffer cap win → Int → Nat → List Bytes → List Report
  | 0, _, _, _, _ => []
  | _ + 1, _, _, _, [] => []
  | fuel + 1, b, offset, position, src :: chunks =>
      if src = [] then joinCalls terminator fuel b offset position chunks
      else
        let (b, offset, r) := join b src offset terminator
        let position := position + (src.length - r.rest.length)
        r.report b position ++ joinCalls terminator fuel b offset position (r.rest :: chunks)

/-- The calls for a whole stream. Every call takes at least one byte of its chunk. -/
def joinAll {cap win : Nat} (terminator : Bytes) (b : Buffer cap win) (chunks : List Bytes) :
    List Report :=
  joinCalls terminator (chunks.flatten.length + chunks.length) b 0 0 chunks

/-- The reports that the records of a stream ask for. -/
def reports (cap win : Nat) : Nat → List Bytes → List Report
  | _, [] => []
  | position, record :: records =>
      ⟨position + record.length + win, if record.length ≤ cap then some record else none⟩ ::
        reports cap win (position + record.length + win) records

/-- The terminators reported are the leftmost ones that do not overlap, with what stands between
them. -/
def ReportsRecords (cap : Nat) (terminator stream : Bytes) (reported : List Report) : Prop :=
  ∃ records tail, Splits terminator stream records tail ∧
    reported = reports cap terminator.length 0 records

/-- The counter tells the length of the record right, or it tells that it is too long. It is an
`int` that passes its range at a record and terminator of more than `2 ^ 31` bytes. -/
def CountedRight (cap win : Nat) (record : Bytes) : Prop :=
  record.length + win ≤ 2 ^ 31 ∨
    (cap < record.length ∧
      cap < sizeT (int32 (((record.length + win : Nat) : Int) - 1) - win + 1))

section Calls

variable {cap win : Nat} {terminator : Bytes} {b : Buffer cap win} {offset : Int} {pending : Bytes}

/-- A buffer and the bytes that it has received since the last report. -/
structure Holds (b : Buffer cap win) (offset : Int) (pending : Bytes) : Prop where
  count : offset = int32 pending.length
  represents : pending.length < 2 ^ 31 → Represents b offset ⟨b.tCheck, pending⟩

/-- What is told about the bytes up to a terminator. -/
structure Tells (cap win : Nat) (raw : Bytes) (record : Option Bytes) : Prop where
  length : record.map List.length =
    let len := sizeT (int32 ((raw.length : Int) - 1) - win + 1)
    if cap < len then none else some len
  line : win ≤ raw.length → raw.length ≤ 2 ^ 31 → record = Scan.line cap win raw

theorem Holds.start (b : Buffer cap win) : Holds b 0 [] := ⟨rfl, fun _ => represents_empty b⟩

theorem Holds.int32_offset (h : Holds b offset pending) : int32 offset = offset := by
  rw [h.count, int32_int32]

/-- A chunk that completes nothing. -/
theorem Holds.quiet (h : Holds b offset pending) {src : Bytes}
    (quiet : Quiet terminator b.tCheck src) (hlen : src.length ≤ 2 ^ 31) :
    ∃ b' offset', join b src offset terminator = (b', offset', ⟨none, [], false⟩) ∧
      Holds b' offset' (pending ++ src) ∧ b'.tCheck = slide b.tCheck src := by
  obtain ⟨b', hjoin, hwindow⟩ := join_counted quiet hlen h.int32_offset
  refine ⟨b', _, hjoin, ⟨?_, fun hsmall => ?_⟩, hwindow⟩
  · rw [h.count, int32_int32_add, List.length_append, Int.natCast_add]
  · rw [List.length_append] at hsmall
    obtain ⟨b'', offset'', hjoin', hnext⟩ := join_quiet (h.represents (by omega)) quiet hsmall
    rw [hjoin] at hjoin'
    cases hjoin'
    rw [hwindow]
    exact hnext

/-- A chunk that completes the terminator. -/
theorem Holds.complete (h : Holds b offset pending) (hwin : 0 < win) {pre : Bytes} {c : UInt8}
    (rest : Bytes) (quiet : Quiet terminator b.tCheck pre)
    (complete : push (slide b.tCheck pre) c = terminator) (hlen : pre.length < 2 ^ 31) :
    ∃ b' r record, join b (pre ++ c :: rest) offset terminator = (b', 0, r) ∧ r.rest = rest ∧
      (∀ position, r.report b' position = [⟨position, record⟩]) ∧
      Tells cap win (pending ++ pre ++ [c]) record ∧ b'.tCheck.tail = terminator.tail := by
  have hraw : (((pending ++ pre ++ [c]).length : Nat) : Int) - 1 = pending.length + pre.length := by
    simp only [List.length_append, List.length_singleton]
    omega
  have hline {b' : Buffer cap win} {r : JoinResult} {record : Option Bytes}
      (hjoin : join b (pre ++ c :: rest) offset terminator = (b', 0, r))
      (hreport : ∀ position, r.report b' position = [⟨position, record⟩])
      (hlo : win ≤ (pending ++ pre ++ [c]).length)
      (hhi : (pending ++ pre ++ [c]).length ≤ 2 ^ 31) :
      record = Scan.line cap win (pending ++ pre ++ [c]) := by
    simp only [List.length_append, List.length_singleton] at hlo hhi
    obtain ⟨b'', hjoin', hdelivers, -⟩ := join_complete (h.represents (by omega)) rest quiet
      complete (by simp only; omega) (fun hlt => by simp only at hlt; omega) hwin (by omega)
    rw [hjoin] at hjoin'
    obtain ⟨rfl, -, rfl⟩ : b' = b'' ∧ (0 : Int) = 0 ∧ r = _ := by
      simpa only [Prod.mk.injEq] using hjoin'
    have hreport := hreport 0
    simp only at hdelivers hreport
    cases hfits : Scan.line cap win (pending ++ pre ++ [c]) with
    | none =>
        rw [hfits] at hreport
        simpa [JoinResult.report, JoinResult.ofLine, eq_comm] using hreport
    | some line =>
        rw [hfits] at hreport
        simpa [JoinResult.report, JoinResult.ofLine, eq_comm, (hdelivers line hfits).1.read]
          using hreport
  obtain ⟨b', hjoin, hwindow⟩ :=
    join_loop terminator b offset (show pre ++ c :: rest ≠ [] by simp)
  rw [← hwindow] at quiet complete
  rw [joinLoop_measured quiet complete (by omega) h.int32_offset, h.count, int32_int32_add,
    ← hraw] at hjoin
  have hslide : (b'.slide (pre ++ [c])).tCheck = terminator := by
    rw [Buffer.slide_tCheck, slide_concat, complete]
  simp only at hjoin
  split at hjoin
  · rename_i hlong
    rw [← h.count] at hjoin
    refine ⟨_, _, none, hjoin, rfl, fun position => rfl, ⟨?_, hline hjoin fun _ => rfl⟩, ?_⟩
    · simp only [if_pos hlong, Option.map_none]
    · rw [hslide]
  · rename_i hfits
    rw [← h.count] at hjoin
    refine ⟨_, _, some _, hjoin, rfl, fun position => rfl, ⟨?_, hline hjoin fun _ => rfl⟩, ?_⟩
    · simp only [if_neg hfits, Option.map_some, Mem.length_read]
    · rw [poke_tail _ (Nat.le_of_not_lt hfits) hwin, hslide]

/-- What is told about the records of a stream from this position on. -/
inductive Reported (cap win : Nat) : Nat → List Bytes → List Report → Prop
  | nil (position : Nat) : Reported cap win position [] []
  | cons {position : Nat} {raw : Bytes} {raws : List Bytes} {record : Option Bytes}
      {reported : List Report} (tells : Tells cap win raw record)
      (next : Reported cap win (position + raw.length) raws reported) :
      Reported cap win position (raw :: raws) (⟨position + raw.length, record⟩ :: reported)

/-- The calls report what the window cuts off, however the stream comes in chunks. -/
theorem joinCalls_reported (terminator : Bytes) (hwin : 0 < win) {fuel : Nat} {chunks : List Bytes}
    (hchunks : ∀ src ∈ chunks, src.length ≤ 2 ^ 31)
    (hfuel : chunks.flatten.length + chunks.length ≤ fuel) (h : Holds b offset pending)
    (position : Nat) :
    Reported cap win position (frames terminator b.tCheck pending chunks.flatten).1
      (joinCalls terminator fuel b offset (position + pending.length) chunks) := by
  induction fuel generalizing b offset pending chunks position with
  | zero =>
      obtain rfl := List.length_eq_zero_iff.mp (by omega : chunks.length = 0)
      exact .nil position
  | succ fuel ih =>
      cases chunks with
      | nil => exact .nil position
      | cons src chunks =>
          have hsrc := hchunks src List.mem_cons_self
          have hrest (rest : Bytes) (hle : rest.length ≤ src.length) :
              ∀ src ∈ rest :: chunks, src.length ≤ 2 ^ 31 :=
            List.forall_mem_cons.mpr ⟨by omega, fun src' hmem =>
              hchunks src' (List.mem_cons_of_mem src hmem)⟩
          rw [List.flatten_cons, List.length_append, List.length_cons] at hfuel
          rw [joinCalls]
          by_cases hnil : src = []
          · rw [if_pos hnil, List.flatten_cons, hnil]
            exact ih (fun src' hmem => hchunks src' (List.mem_cons_of_mem src hmem)) (by omega) h
              position
          · have hpos := List.length_pos_iff.mpr hnil
            rw [if_neg hnil]
            rcases quiet_or_first terminator b.tCheck src with
              quiet | ⟨pre, c, rest, rfl, quiet, complete⟩
            · obtain ⟨b', offset', hjoin, hnext, hwindow⟩ := h.quiet quiet hsrc
              have hlater := ih (hrest [] (Nat.zero_le _))
                (by simp only [List.flatten_cons, List.nil_append, List.length_cons]; omega)
                hnext position
              rw [List.length_append, ← Nat.add_assoc, hwindow] at hlater
              rw [List.flatten_cons, frames_append, frames_quiet _ quiet]
              simp only [hjoin, JoinResult.report, Bool.false_eq_true, if_false, List.length_nil,
                Nat.sub_zero, List.nil_append]
              exact hlater
            · simp only [List.length_append, List.length_cons] at hsrc hfuel hrest
              obtain ⟨b', r, record, hjoin, rfl, hreport, tells, htail⟩ :=
                h.complete hwin rest quiet complete (by omega)
              have hlater := ih (hrest r.rest (by omega))
                (by simp only [List.flatten_cons, List.length_append, List.length_cons]; omega)
                (.start b') (position + (pending ++ pre ++ [c]).length)
              have hposition : position + pending.length +
                  ((pre ++ c :: r.rest).length - r.rest.length) =
                    position + (pending ++ pre ++ [c]).length := by
                simp only [List.length_append, List.length_cons, List.length_nil]
                omega
              have hwindow : frames terminator b'.tCheck [] (r.rest ++ chunks.flatten) =
                  frames terminator terminator [] (r.rest ++ chunks.flatten) := by
                refine frames_congr htail ?_ ?_ _ _
                · rw [b'.tCheck_length]
                  exact hwin
                · rw [← complete, length_push, length_slide, b.tCheck_length]
                  exact hwin
              rw [List.length_nil, Nat.add_zero, List.flatten_cons, hwindow] at hlater
              rw [List.flatten_cons, List.append_assoc, List.cons_append,
                frames_complete pending _ quiet complete]
              simp only [hjoin, hreport, hposition, List.singleton_append]
              exact .cons tells hlater

/-- A length that has passed the range of the counter is not told. -/
theorem sizeT_int32_ne {n win : Nat} (hlong : 2 ^ 31 < n + win) (hsize : n + win < 2 ^ 63) :
    sizeT (int32 (((n + win : Nat) : Int) - 1) - win + 1) ≠ n := by
  have hlt : int32 (((n + win : Nat) : Int) - 1) < 2 ^ 31 := by
    unfold int32
    exact Int.bmod_lt (by decide)
  have hle : -2 ^ 31 ≤ int32 (((n + win : Nat) : Int) - 1) := by
    unfold int32
    exact Int.le_bmod (by decide)
  generalize int32 (((n + win : Nat) : Int) - 1) = k at hlt hle
  unfold sizeT
  omega

/-- What is told about a record is right when its length is counted right. -/
theorem Tells.right_iff {record : Bytes} {told : Option Bytes} (hsize : cap + win < 2 ^ 63)
    (hwin : terminator.length = win) (h : Tells cap win (record ++ terminator) told) :
    told = (if record.length ≤ cap then some record else none) ↔ CountedRight cap win record := by
  obtain ⟨hlength, hline⟩ := h
  rw [List.length_append, hwin] at hlength hline
  unfold CountedRight
  by_cases hshort : record.length + win ≤ 2 ^ 31
  · refine iff_of_true ?_ (Or.inl hshort)
    rw [hline (Nat.le_add_left win _) hshort, Scan.line]
    by_cases hfits : record.length ≤ cap
    · rw [if_pos hfits, if_pos (by rw [List.length_append]; omega), List.length_append, hwin,
        Nat.add_sub_cancel, List.take_left]
    · rw [if_neg hfits, if_neg (by rw [List.length_append]; omega)]
  · rw [or_iff_right hshort]
    constructor
    · rintro rfl
      by_cases hfits : record.length ≤ cap
      · have hne := sizeT_int32_ne (Nat.lt_of_not_le hshort) (by omega)
        rw [if_pos hfits, Option.map_some] at hlength
        simp only at hlength
        split at hlength
        · cases hlength
        · exact absurd (Option.some.inj hlength).symm hne
      · refine ⟨Nat.lt_of_not_le hfits, ?_⟩
        rw [if_neg hfits, Option.map_none] at hlength
        simp only at hlength
        split at hlength
        · assumption
        · cases hlength
    · rintro ⟨hlong, hcounted⟩
      simp only [if_pos hcounted] at hlength
      rw [if_neg (Nat.not_le.mpr hlong)]
      exact Option.map_eq_none_iff.mp hlength

/-- Right reports tell where the records end. -/
theorem Reported.ends {position : Nat} {raws records : List Bytes}
    (h : Reported cap win position raws (reports cap win position records)) :
    raws.map List.length = records.map fun record => record.length + win := by
  induction records generalizing position raws with
  | nil =>
      cases h
      rfl
  | cons record records ih =>
      generalize hreports : reports cap win position (record :: records) = reported at h
      cases h with
      | nil => cases hreports
      | @cons _ raw raws told reported tells next =>
          rw [reports, List.cons.injEq, Report.mk.injEq] at hreports
          obtain ⟨⟨hposition, -⟩, rfl⟩ := hreports
          have hlength : raw.length = record.length + win := by omega
          rw [hlength, ← Nat.add_assoc] at next
          rw [List.map_cons, List.map_cons, hlength, ih next]

/-- The reports are right about the records whose lengths are counted right. -/
theorem Reported.right_iff (hsize : cap + win < 2 ^ 63) (hwin : terminator.length = win)
    {position : Nat} {records : List Bytes} {reported : List Report}
    (h : Reported cap win position (records.map (· ++ terminator)) reported) :
    reported = reports cap win position records ↔
      ∀ record ∈ records, CountedRight cap win record := by
  induction records generalizing position reported with
  | nil =>
      cases h
      exact iff_of_true rfl fun record hmem => absurd hmem List.not_mem_nil
  | cons record records ih =>
      cases h with
      | cons tells next =>
          rw [List.length_append, hwin, ← Nat.add_assoc] at next ⊢
          rw [List.forall_mem_cons, ← ih next, ← tells.right_iff hsize hwin, reports,
            List.cons.injEq, Report.mk.injEq]
          simp only [true_and]

end Calls

/-- A buffer of zeros. -/
def Buffer.zeros (cap win : Nat) : Buffer cap win where
  target := List.replicate cap nul
  tCheck := List.replicate win nul
  target_length := List.length_replicate
  tCheck_length := List.length_replicate

section Streams

variable {cap : Nat} {terminator : Bytes} {b : Buffer cap terminator.length} {chunks : List Bytes}

theorem joinAll_reported (hne : terminator ≠ [])
    (zero : b.tCheck = List.replicate terminator.length nul)
    (hchunks : ∀ src ∈ chunks, src.length ≤ 2 ^ 31) :
    Reported cap terminator.length 0
      (frames terminator (List.replicate terminator.length nul) [] chunks.flatten).1
      (joinAll terminator b chunks) := by
  have hreported := joinCalls_reported terminator (List.length_pos_iff.mpr hne) hchunks
    (Nat.le_refl _) (.start b) 0
  rw [zero] at hreported
  exact hreported

/-- Terminators that are apart are reported with the records between them. -/
theorem reportsRecords_of_apart (hne : terminator ≠ []) (hsize : cap + terminator.length < 2 ^ 63)
    (zero : b.tCheck = List.replicate terminator.length nul)
    (hchunks : ∀ src ∈ chunks, src.length ≤ 2 ^ 31)
    (apart : Apart terminator (List.replicate terminator.length nul) chunks.flatten)
    (counted : ∀ records tail, Splits terminator chunks.flatten records tail →
      ∀ record ∈ records, CountedRight cap terminator.length record) :
    ReportsRecords cap terminator chunks.flatten (joinAll terminator b chunks) := by
  have hreported := joinAll_reported hne zero hchunks
  obtain ⟨records, tail, splits⟩ := exists_splits hne chunks.flatten
  rw [splits.frames_eq hne List.length_replicate apart] at hreported
  exact ⟨records, tail, splits, (hreported.right_iff hsize rfl).mpr (counted records tail splits)⟩

/-- The lines of a stream, whose terminator never overlaps another one. -/
theorem reportsRecords_crlf {cap : Nat} (hsize : cap < 2 ^ 62) {b : Buffer cap 2}
    (zero : b.tCheck = [nul, nul]) (hchunks : ∀ src ∈ chunks, src.length ≤ 2 ^ 31)
    (counted : ∀ records tail, Splits [cr, lf] chunks.flatten records tail →
      ∀ record ∈ records, CountedRight cap 2 record) :
    ReportsRecords cap [cr, lf] chunks.flatten (joinAll [cr, lf] b chunks) := by
  refine reportsRecords_of_apart (b := b) (by decide) ?_ zero hchunks ?_ counted
  · simp only [List.length_cons, List.length_nil]
    omega
  · refine apart_of_unbordered ?_ (fun a ha => ?_) (by decide) chunks.flatten
    rotate_left
    · obtain rfl := List.eq_of_mem_replicate ha
      decide
    intro i hpos hlt
    obtain rfl : i = 1 := by
      simp only [List.length_cons, List.length_nil] at hlt
      omega
    decide

end Streams

/-- However the stream comes in chunks, the terminators reported are the leftmost ones that do not
overlap, with the records between them, exactly when no two terminators overlap, none overlaps the
zeros that are in the window at first, and the length of every record is counted right. A buffer
is an object, of less than `2 ^ 63` bytes. -/
theorem joinAll_reportsRecords_iff {cap : Nat} {terminator : Bytes} (hne : terminator ≠ [])
    (hsize : cap + terminator.length < 2 ^ 63) (b : Buffer cap terminator.length)
    (zero : b.tCheck = List.replicate terminator.length nul) (chunks : List Bytes)
    (hchunks : ∀ src ∈ chunks, src.length ≤ 2 ^ 31) :
    ReportsRecords cap terminator chunks.flatten (joinAll terminator b chunks) ↔
      Apart terminator (List.replicate terminator.length nul) chunks.flatten ∧
        ∀ records tail, Splits terminator chunks.flatten records tail →
          ∀ record ∈ records, CountedRight cap terminator.length record := by
  constructor
  · rintro ⟨records, tail, splits, hright⟩
    have hreported := joinAll_reported hne zero hchunks
    rw [hright] at hreported
    have apart := splits.apart hne List.length_replicate hreported.ends
    refine ⟨apart, fun records' tail' splits' => ?_⟩
    obtain ⟨rfl, rfl⟩ := splits.unique splits'
    rw [splits.frames_eq hne List.length_replicate apart] at hreported
    exact (hreported.right_iff hsize rfl).mp rfl
  · rintro ⟨apart, counted⟩
    exact reportsRecords_of_apart hne hsize zero hchunks apart counted

/-- Two messages, in two chunks. -/
def twoMessages : List Bytes := [text "a\r\n.", text "\r\nb\r\n.\r\n"]

theorem splits_twoMessages :
    Splits (text "\r\n.\r\n") twoMessages.flatten [text "a", text "b"] [] :=
  @Splits.record _ _ (text "a") (text "b\r\n.\r\n") _ _ (by decide)
    (@Splits.record _ _ (text "b") [] _ _ (by decide) (.tail (by decide)))

/-- Terminators that are apart. -/
theorem joinAll_reportsRecords_iff_messages :
    ReportsRecords 11 (text "\r\n.\r\n") twoMessages.flatten
      (joinAll (text "\r\n.\r\n") (Buffer.zeros 11 5) twoMessages) := by
  refine (joinAll_reportsRecords_iff (by decide) (by decide) (Buffer.zeros 11 5) rfl twoMessages
    (by decide)).mpr ⟨splits_twoMessages.apart (by decide) rfl (by decide), ?_⟩
  intro records tail splits record hrecord
  obtain ⟨rfl, -⟩ := splits_twoMessages.unique splits
  refine Or.inl ?_
  revert record
  decide

/-- Two ends of messages that share a CRLF, in two chunks. -/
def sharedCrlf : List Bytes := [text "\r\n.\r", text "\n.\r\n"]

theorem splits_sharedCrlf :
    Splits (text "\r\n.\r\n") sharedCrlf.flatten [[]] (text ".\r\n") :=
  @Splits.record _ _ [] (text ".\r\n") _ _ (by decide) (.tail (by decide))

/-- A terminator that shares its CRLF with the one before is reported as well. -/
theorem not_reportsRecords_shared :
    ¬ ReportsRecords 11 (text "\r\n.\r\n") sharedCrlf.flatten
      (joinAll (text "\r\n.\r\n") (Buffer.zeros 11 5) sharedCrlf) := by
  rintro ⟨records, tail, splits, hright⟩
  obtain ⟨rfl, rfl⟩ := splits.unique splits_sharedCrlf
  have hreported : joinAll (text "\r\n.\r\n") (Buffer.zeros 11 5) sharedCrlf =
      [⟨5, some []⟩, ⟨8, none⟩] := by
    decide +kernel
  rw [hreported] at hright
  exact absurd hright (by decide)

end Ervan
