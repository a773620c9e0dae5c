import RecordMachine.Proofs.Reassembly
import RecordMachine.Proofs.Replay
import RecordMachine.Proofs.StreamCodec
/-!
# Runs of relisted streams

What a machine does with a record depends on the instruction that it decodes to, and not on its
padding. A stream and what is assembled from its listing therefore run alike, also where their bytes
differ.
-/
namespace RecordMachine

/-- Two streams of one length whose records decode alike, place by place. -/
structure ReadsAs (stream other : List UInt8) : Prop where
  length : stream.length = other.length
  decode : (Record.split stream).1.map Record.decode = (Record.split other).1.map Record.decode

theorem Record.fault?_congr {r s : Record} (h : r.decode = s.decode) (memorySize offset : Nat) :
    r.fault? memorySize offset = s.fault? memorySize offset := by
  cases hs : s.decode with
  | ok i => rw [fault?_of_decode (h.trans hs), fault?_of_decode hs]
  | error e =>
    have htag : r.tag = s.tag := by
      have hr := (tag_of_decode_error (h.trans hs)).2
      rw [(tag_of_decode_error hs).2] at hr
      exact (CodecError.unknownTag.inj hr).symm
    rw [fault?_of_decode_error (h.trans hs), fault?_of_decode_error hs, htag]

namespace ReadsAs

variable {stream other : List UInt8}

theorem records (h : ReadsAs stream other) (k : Nat) :
    ((Record.split stream).1[k]? = none ∧ (Record.split other).1[k]? = none) ∨
      ∃ r s, (Record.split stream).1[k]? = some r ∧ (Record.split other).1[k]? = some s ∧
        r.decode = s.decode := by
  have hk := congrArg (·[k]?) h.decode
  simp only [List.getElem?_map] at hk
  cases hr : (Record.split stream).1[k]? with
  | none =>
    rw [hr] at hk
    exact .inl ⟨rfl, Option.map_eq_none_iff.mp hk.symm⟩
  | some r =>
    rw [hr] at hk
    obtain ⟨s, hs, hd⟩ := Option.map_eq_some_iff.mp hk.symm
    exact .inr ⟨r, s, rfl, hs, hd.symm⟩

theorem instructionAt?_eq (h : ReadsAs stream other) (k : Nat) :
    instructionAt? other k = instructionAt? stream k := by
  rcases h.records k with ⟨hr, hs⟩ | ⟨r, s, hr, hs, hd⟩
  · rw [instructionAt?, instructionAt?, hr, hs]
  · rw [instructionAt?, instructionAt?, hr, hs, Option.bind_some, Option.bind_some, hd]

theorem endingAt?_eq (h : ReadsAs stream other) (config : Config) (k : Nat) :
    endingAt? other config k = endingAt? stream config k := by
  have hfault : (Record.split other).1[k]?.bind
        (·.fault? config.memorySize (k * Record.size)) =
      (Record.split stream).1[k]?.bind
        (·.fault? config.memorySize (k * Record.size)) := by
    rcases h.records k with ⟨hr, hs⟩ | ⟨r, s, hr, hs, hd⟩
    · rw [hr, hs]
    · rw [hr, hs, Option.bind_some, Option.bind_some, Record.fault?_congr hd]
  simp only [endingAt?, h.length, hfault]

theorem course (h : ReadsAs stream other) {config : Config} {p : Program} {ending : Ending}
    (c : Course stream config 0 p ending) : Course other config 0 p ending :=
  c.congr (fun _ _ => h.endingAt?_eq config _) fun _ _ => h.instructionAt?_eq _

end ReadsAs

theorem Listing.readsAs_of_program {bytes : List UInt8} {p : Program}
    (h : program bytes false = .ok p) : ReadsAs bytes p.stream := by
  obtain ⟨htail, hrecords⟩ := program_eq_ok_iff.mp h
  have hp : (Record.split p.stream).1.map Record.decode = p.map .ok := by
    rw [Program.split_stream, List.map_map]
    exact List.map_congr_left fun i _ => Record.decode_record i
  refine ⟨?_, hrecords.trans hp.symm⟩
  have hcount := congrArg List.length hrecords
  have hlength := congrArg List.length (Record.flatMap_bytes_split bytes)
  rw [List.length_map, List.length_map] at hcount
  rw [htail, List.append_nil, Record.length_flatMap_bytes, hcount] at hlength
  rw [Program.length_stream, hlength]

theorem Assembly.ofSource_listing_of_program {bytes : List UInt8} {strict : Bool} {p : Program}
    (h : Listing.program bytes strict = .ok p) :
    ∃ a, ofSource (Listing.ofBytes bytes strict) = .ok a ∧ a.program = p ∧ a.bytes = p.stream := by
  have hfound := Listing.map_snd_recognised (Listing.collect_eq_ok_iff.mp h)
  refine ⟨_, ofSource_listing_eq bytes strict, ?_, ?_⟩
  · rw [program_stepsOf, hfound]
  · rw [bytes_stepsOf, hfound]

namespace Machine

theorem exists_run_of_readsAs {stream other : List UInt8} (h : ReadsAs stream other)
    {config : Config} (hpos : 0 < config.memorySize) (hmax : config.memorySize ≤ 65536) :
    ∃ m m', start stream config = .ok m ∧ start other config = .ok m' ∧ m.run = m'.run := by
  obtain ⟨m, hm, hat, -, hrun⟩ := exists_outcome stream config hpos hmax
  obtain ⟨m', hm', -, -, hrun'⟩ := exists_outcome other config hpos hmax
  obtain ⟨p, ending, c⟩ := hat.exists_course
  refine ⟨m, m', hm, hm', ?_⟩
  rw [hrun p ending c, hrun' p ending (h.course c)]

/-- What is assembled from the listing of a program's stream is the stream without its padding. The
machine refuses both for the same configuration, or else both runs give the same. -/
theorem run_relisted {bytes : List UInt8} {p : Program}
    (h : Listing.program bytes false = .ok p) (config : Config) :
    ∃ a, Assembly.ofSource (Listing.ofBytes bytes false) = .ok a ∧
      a.bytes = Program.clearPadding bytes ∧
      match config.validate with
      | .error error =>
        start bytes config = .error (.config error) ∧
          start a.bytes config = .error (.config error)
      | .ok () =>
        ∃ m m', start bytes config = .ok m ∧ start a.bytes config = .ok m' ∧ m.run = m'.run := by
  obtain ⟨a, ha, -, hbytes⟩ := Assembly.ofSource_listing_of_program h
  have hclear := Program.stream_of_ofBytes (Program.ofBytes_eq_ok_iff_program.mpr h)
  refine ⟨a, ha, hbytes.trans hclear, ?_⟩
  cases hv : config.validate with
  | error error =>
    exact ⟨start_of_validate_eq_error hv bytes, start_of_validate_eq_error hv a.bytes⟩
  | ok _ =>
    obtain ⟨hpos, hmax⟩ := Config.memorySize_of_validate hv
    rw [hbytes]
    exact exists_run_of_readsAs (Listing.readsAs_of_program h) hpos hmax

/-- Padding is set in the last two records, and the memory has no cell for the last one. -/
theorem run_relisted_padding :
    Listing.program [6, 1, 0, 0, 0, 9, 14, 0, 3, 1, 2, 255, 10, 1, 0, 20, 7, 7] false =
        .ok [.loadConst 1 9, .mod 3 1 2, .readMem 1 20] ∧
      ∃ a m m',
        Assembly.ofSource (Listing.ofBytes
          [6, 1, 0, 0, 0, 9, 14, 0, 3, 1, 2, 255, 10, 1, 0, 20, 7, 7] false) = .ok a ∧
        a.bytes = [6, 1, 0, 0, 0, 9, 14, 0, 3, 1, 2, 0, 10, 1, 0, 20, 0, 0] ∧
        start [6, 1, 0, 0, 0, 9, 14, 0, 3, 1, 2, 255, 10, 1, 0, 20, 7, 7] ⟨16, some 5⟩ = .ok m ∧
        start a.bytes ⟨16, some 5⟩ = .ok m' ∧ m.run = m'.run := by
  have hprogram : Listing.program
      [6, 1, 0, 0, 0, 9, 14, 0, 3, 1, 2, 255, 10, 1, 0, 20, 7, 7] false =
        .ok [.loadConst 1 9, .mod 3 1 2, .readMem 1 20] :=
    rfl
  refine ⟨hprogram, ?_⟩
  obtain ⟨a, ha, hbytes, m, m', hm, hm', hrun⟩ := run_relisted hprogram ⟨16, some 5⟩
  exact ⟨a, m, m', ha, hbytes, hm, hm', hrun⟩

end Machine

end RecordMachine
