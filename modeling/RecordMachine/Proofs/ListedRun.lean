import RecordMachine.Proofs.Replay
import RecordMachine.Proofs.StreamCodec
/-!
# Runs and listings

The machine and the listing cut a stream into the same records. A run that halts has executed the
program of the stream, and a record that brings a run down is the one that the listing shows at the
offset of the fault.
-/
namespace RecordMachine

namespace Listing

variable {bytes : List UInt8} {k : Nat}

theorem offset_of_getElem?_lines {strict : Bool} {line : Line}
    (h : (lines bytes strict)[k]? = some line) : line.offset = k * Record.size := by
  rcases getElem?_lines_eq_some_iff.mp h with ⟨r, -, rfl⟩ | ⟨-, -, rfl⟩
  · rfl
  · rfl

theorem getElem?_lines_of_record {strict : Bool} {r : Record}
    (h : (Record.split bytes).1[k]? = some r) :
    (lines bytes strict)[k]? = some (recordLine strict r k) :=
  getElem?_lines_eq_some_iff.mpr (.inl ⟨r, h, rfl⟩)

theorem program_eq_error_iff {strict : Bool} {error : Error} :
    program bytes strict = .error error ↔
      ∃ (k : Nat) (line : Line), (lines bytes strict)[k]? = some line ∧
        line.outcome = .error error ∧
        ∀ j < k, ∃ earlier, (lines bytes strict)[j]? = some earlier ∧
          ∃ i, earlier.outcome = .ok i := by
  rw [program, collect_eq_mapM]
  exact Traversal.mapM_eq_error_iff_getElem?

theorem Line.offset_of_outcome {line : Line} {error : Error} (h : line.outcome = .error error) :
    error.offset = line.offset := by
  unfold outcome at h
  split at h
  next => cases h
  next => cases h; rfl
  next => cases h; rfl

theorem exists_line_of_instructionAt? {i : Instruction} (h : instructionAt? bytes k = some i) :
    ∃ line, (lines bytes false)[k]? = some line ∧ line.outcome = .ok i := by
  obtain ⟨r, hr, hd⟩ := exists_record_of_instructionAt? h
  refine ⟨recordLine false r k, getElem?_lines_of_record hr, ?_⟩
  exact Line.outcome_eq_ok_iff.mpr ((content_recordLine k).mpr hd)

end Listing

theorem endingAt?_fault_cases {stream : List UInt8} {memorySize k : Nat} {error : MachineError}
    (h : endingAt? stream ⟨memorySize, none⟩ k = some (.fault error)) :
    (k * Record.size ≠ stream.length ∧ stream.length - k * Record.size < Record.size ∧
        error = .partialRecord (k * Record.size) (stream.length - k * Record.size)) ∨
      ∃ r, (Record.split stream).1[k]? = some r ∧
        r.fault? memorySize (k * Record.size) = some error := by
  rw [endingAt?] at h
  split at h
  next => cases h
  next hk =>
    simp only [Option.filter_none] at h
    split at h
    next hs =>
      cases h
      exact .inl ⟨hk, hs, rfl⟩
    next =>
      obtain ⟨error, hb, he⟩ := Option.map_eq_some_iff.mp h
      cases he
      exact .inr (Option.bind_eq_some_iff.mp hb)

namespace Course

variable {stream : List UInt8} {config : Config} {p : Program} {ending : Ending}

theorem exists_record (c : Course stream config 0 p ending) {j : Nat} (hj : j < p.length) :
    ∃ r, (Record.split stream).1[j]? = some r ∧ r.decode = .ok p[j] := by
  have hi := c.instructionAt?_add (List.getElem?_eq_getElem hj)
  rw [Nat.zero_add] at hi
  exact exists_record_of_instructionAt? hi

theorem exists_line (c : Course stream config 0 p ending) {j : Nat} (hj : j < p.length) :
    ∃ line, (Listing.lines stream false)[j]? = some line ∧ ∃ i, line.outcome = .ok i := by
  have hi := c.instructionAt?_add (List.getElem?_eq_getElem hj)
  rw [Nat.zero_add] at hi
  obtain ⟨line, hl, ho⟩ := Listing.exists_line_of_instructionAt? hi
  exact ⟨line, hl, _, ho⟩

theorem length_le (c : Course stream config 0 p ending) :
    p.length ≤ (Record.split stream).1.length := by
  apply Nat.le_of_not_lt
  intro hlt
  obtain ⟨r, hr, -⟩ := c.exists_record hlt
  rw [List.getElem?_eq_none (Nat.le_refl _)] at hr
  cases hr

theorem program_eq_ok (c : Course stream config 0 p ending)
    (hl : p.length * Record.size = stream.length) : Listing.program stream false = .ok p := by
  rw [Listing.program_eq_ok_iff]
  constructor
  · rw [Program.split_snd_eq_nil_iff, ← hl]
    exact Nat.mul_mod_left _ _
  · apply List.ext_getElem?
    intro j
    rw [List.getElem?_map, List.getElem?_map]
    by_cases hj : j < p.length
    · obtain ⟨r, hr, hd⟩ := c.exists_record hj
      rw [hr, List.getElem?_eq_getElem hj]
      exact congrArg some hd
    · have hlen : (Record.split stream).1.length = p.length := by
        rw [Record.length_fst_split, ← hl, Nat.mul_div_cancel _ (by decide)]
      rw [List.getElem?_eq_none (by omega), List.getElem?_eq_none (by omega)]
      rfl

/-- The record behind the executed ones is the first that the listing does not accept, if it does
not accept it. -/
theorem program_eq_error (c : Course stream config 0 p ending) {line : Listing.Line}
    {error : Listing.Error} (hl : (Listing.lines stream false)[p.length]? = some line)
    (ho : line.outcome = .error error) : Listing.program stream false = .error error :=
  Listing.program_eq_error_iff.mpr ⟨p.length, line, hl, ho, fun _ hj => c.exists_line hj⟩

theorem offset_le_of_program_eq_error (c : Course stream config 0 p ending)
    {error : Listing.Error} (h : Listing.program stream false = .error error) :
    p.length * Record.size ≤ error.offset := by
  obtain ⟨k, line, hl, ho, -⟩ := Listing.program_eq_error_iff.mp h
  rw [Listing.Line.offset_of_outcome ho, Listing.offset_of_getElem?_lines hl]
  apply Nat.mul_le_mul_right
  apply Nat.le_of_not_lt
  intro hlt
  obtain ⟨earlier, he, i, hi⟩ := c.exists_line hlt
  obtain rfl := Option.some.inj (hl.symm.trans he)
  cases ho.symm.trans hi

theorem program_of_partialRecord (c : Course stream config 0 p ending)
    (hne : p.length * Record.size ≠ stream.length)
    (hs : stream.length - p.length * Record.size < Record.size) :
    Listing.program stream false =
      .error (.shortTail (p.length * Record.size) (stream.length - p.length * Record.size)) := by
  have hle := c.length_le
  have hdiv := Record.length_fst_split stream
  have hmod := Record.length_split stream
  have hk : p.length = (Record.split stream).1.length := by
    simp only [Record.size] at *
    omega
  have htail : (Record.split stream).2.length = stream.length - p.length * Record.size := by
    simp only [Record.size] at *
    omega
  have hnil : (Record.split stream).2 ≠ [] := by
    intro h
    rw [h, List.length_nil] at htail
    simp only [Record.size] at *
    omega
  have hline : (Listing.lines stream false)[p.length]? =
      some ⟨p.length * Record.size, (Record.split stream).2, .tail⟩ :=
    Listing.getElem?_lines_eq_some_iff.mpr (.inr ⟨hnil, hk, rfl⟩)
  rw [← htail]
  exact c.program_eq_error hline rfl

theorem program_of_unknownTag (c : Course stream config 0 p ending) {r : Record}
    (hr : (Record.split stream).1[p.length]? = some r)
    (hd : r.decode = .error (.unknownTag r.tag)) :
    Listing.program stream false =
      .error (.badRecord (p.length * Record.size) (.unknownTag r.tag)) := by
  refine c.program_eq_error (Listing.getElem?_lines_of_record hr) ?_
  simp [Listing.Line.outcome, Listing.recordLine, hd]

end Course

/-- The listing of the stream shows why the run failed, at the offset at which it failed. -/
def RunFault.IsListed (f : RunFault) (stream : List UInt8) (memorySize : Nat) : Prop :=
  match f.error with
  | .unknownOpcode offset tag =>
    offset = f.offset ∧
      Listing.program stream false = .error (.badRecord offset (.unknownTag tag))
  | .partialRecord offset remaining =>
    offset = f.offset ∧ Listing.program stream false = .error (.shortTail offset remaining)
  | .missingCell offset opcode store index size =>
    offset = f.offset ∧
      ∃ line i, (Listing.lines stream false)[offset / Record.size]? = some line ∧
        line.offset = offset ∧ line.content = .instruction i ∧ i.opcode = opcode ∧
        i.missingCell? memorySize = some (store, index, size)
  | .codec _ | .rangeOutside .. | .config _ | .stepLimit _ => False

theorem Course.isListed {stream : List UInt8} {memorySize : Nat} {p : Program}
    {error : MachineError} (c : Course stream ⟨memorySize, none⟩ 0 p (.fault error))
    (journal : Journal) (state : State) :
    RunFault.IsListed ⟨p.length * Record.size, error, journal, state⟩ stream memorySize := by
  have hend := c.endingAt?_add_length
  rw [Nat.zero_add] at hend
  rcases endingAt?_fault_cases hend with ⟨hne, hs, rfl⟩ | ⟨r, hr, hf⟩
  · exact ⟨rfl, c.program_of_partialRecord hne hs⟩
  · rcases Record.fault?_cases hf with ⟨hd, rfl⟩ | ⟨i, store, index, size, hd, hc, rfl⟩
    · exact ⟨rfl, c.program_of_unknownTag hr hd⟩
    · have hindex : p.length * Record.size / Record.size = p.length :=
        Nat.mul_div_cancel _ (by decide)
      refine ⟨rfl, Listing.recordLine false r p.length, i, ?_, rfl, ?_, rfl, hc⟩
      · rw [hindex]
        exact Listing.getElem?_lines_of_record hr
      · exact (Listing.content_recordLine p.length).mpr hd

namespace Machine

/-- A run without a limit that halts has executed the program of the stream, one that fails does so
at a record that the listing shows, and a stream that is no program brings every run down, at the
latest where reading it as a program stops. -/
theorem exists_listed_run (stream : List UInt8) (memorySize : Nat) (hpos : 0 < memorySize)
    (hmax : memorySize ≤ 65536) :
    ∃ m, start stream ⟨memorySize, none⟩ = .ok m ∧
      (∀ r, m.run = .ok r →
        r.journal.changes.length = r.steps ∧
        Listing.program stream false =
          .ok (r.journal.changes.map JournalEntry.instruction)) ∧
      (∀ f, m.run = .error f → f.IsListed stream memorySize) ∧
      ∀ error, Listing.program stream false = .error error →
        ∃ f, m.run = .error f ∧ f.offset ≤ error.offset := by
  have hconfig : 0 < (Config.mk memorySize none).memorySize := hpos
  obtain ⟨m, p, ending, hm, c, hrun⟩ := exists_run stream hconfig hmax
  have hinstructions := State.map_instruction_journal (State.sized_zero memorySize)
    (fun i hi => c.missingCell?_eq_none hi) 0
  refine ⟨m, hm, ?_⟩
  rcases hrun with ⟨rfl, hr⟩ | ⟨error, rfl, hr⟩
  · have hend := c.endingAt?_add_length
    rw [Nat.zero_add] at hend
    have hlength : p.length * Record.size = stream.length := by
      rcases endingAt?_cases hend with ⟨hk, -⟩ | ⟨error, -, hf, -⟩
      · exact hk
      · cases hf
    have hprogram := c.program_eq_ok hlength
    rw [hr, hprogram]
    refine ⟨fun r h => ?_, nofun, nofun⟩
    obtain rfl := Except.ok.inj h
    refine ⟨?_, congrArg Except.ok hinstructions.symm⟩
    have hlen := congrArg List.length hinstructions
    rwa [List.length_map] at hlen
  · rw [hr]
    refine ⟨nofun, fun f h => ?_, fun error h => ?_⟩
    · obtain rfl := Except.error.inj h
      exact c.isListed _ _
    · exact ⟨_, rfl, c.offset_le_of_program_eq_error h⟩

/-- The second record has no opcode, and the memory has no cell for the first one. -/
theorem exists_listed_run_missingCell :
    0 < 8 ∧ 8 ≤ 65536 ∧
      ∃ m f, start [0x0A, 1, 0, 8, 0, 0, 0x07, 0, 0, 0, 0, 0, 0x06] ⟨8, none⟩ = .ok m ∧
        m.run = .error f ∧ f.offset ≤ 6 ∧
        f.IsListed [0x0A, 1, 0, 8, 0, 0, 0x07, 0, 0, 0, 0, 0, 0x06] 8 := by
  refine ⟨by decide, by decide, ?_⟩
  obtain ⟨m, hm, -, hlisted, hrefused⟩ :=
    exists_listed_run [0x0A, 1, 0, 8, 0, 0, 0x07, 0, 0, 0, 0, 0, 0x06] 8 (by decide) (by decide)
  have hprogram : Listing.program [0x0A, 1, 0, 8, 0, 0, 0x07, 0, 0, 0, 0, 0, 0x06] false =
      .error (.badRecord 6 (.unknownTag 0x07)) :=
    rfl
  obtain ⟨f, hf, hle⟩ := hrefused _ hprogram
  exact ⟨m, f, hm, hf, hle, hlisted f hf⟩

end Machine

end RecordMachine
