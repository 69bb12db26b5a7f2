import OpcodeChart.Proofs.Overflow
import OpcodeChart.Proofs.Reorder
import OpcodeChart.Proofs.Capacity
import OpcodeChart.Proofs.Validation
import OpcodeChart.Proofs.Walk
import OpcodeChart.Proofs.Report
import OpcodeChart.Proofs.Coherence
import OpcodeChart.Proofs.Mnemonic
