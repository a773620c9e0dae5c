import RecordMachine.Main
import RecordMachine.Proofs.Artifacts
import RecordMachine.Proofs.ListedRun
import RecordMachine.Proofs.MemoryGrowth
import RecordMachine.Proofs.Padding
import RecordMachine.Proofs.Reassembly
import RecordMachine.Proofs.Reference
import RecordMachine.Proofs.Relisting
import RecordMachine.Proofs.Resumption
import RecordMachine.Proofs.Rollback
import RecordMachine.Proofs.Siblings
import RecordMachine.Proofs.Spelling
import RecordMachine.Proofs.StepLimit
import RecordMachine.Proofs.Stepping
import RecordMachine.Proofs.AllOrNone
import RecordMachine.Proofs.WholeFiles
import RecordMachine.Proofs.QuotedCells
import RecordMachine.Proofs.CheckedValues
import RecordMachine.Proofs.Atomicity
import RecordMachine.Proofs.Footprint
import RecordMachine.Proofs.MaximalMunch
import RecordMachine.Proofs.ListedBytes
import RecordMachine.Proofs.JournalCsv
import RecordMachine.Proofs.LoggedRows
import RecordMachine.Proofs.RangeText
import RecordMachine.Proofs.DumpedCells
import RecordMachine.Proofs.Layouts
import RecordMachine.Proofs.Literals
