import Mbim.Message.Dump
import Mbim.Reassembler.Run
import Mbim.Series.Offer
import Mbim.Stream.Receiver
import Mbim.Wire.Buffer
import Mbim.Proofs.Series.Gather
import Mbim.Proofs.Split.Pieces
import Mbim.Proofs.Stream.Chunks
import Mbim.Proofs.Stream.RoundTrip
import Mbim.Proofs.Reassembler.Interleaving
import Mbim.Proofs.Reassembler.History
import Mbim.Proofs.Reassembler.Soundness
import Mbim.Proofs.Reassembler.Independence
import Mbim.Proofs.Message.Reading
import Mbim.Proofs.Reassembler.Consistency
import Mbim.Proofs.Faults
import Mbim.Proofs.Stream.Truncation
import Mbim.Proofs.Reassembler.Conservation
import Mbim.Proofs.Message.Format
import Mbim.Proofs.Series.Collect
import Mbim.Proofs.Stream.Counting
import Mbim.Proofs.Series.Admission
import Mbim.Proofs.Reassembler.Lifetime
import Mbim.Proofs.Reassembler.Recovery
import Mbim.Proofs.Series.Holding
import Mbim.Proofs.Split.Decision
import Mbim.Proofs.Stream.Writing
import Mbim.Proofs.Stream.Progress
import Mbim.Proofs.Reassembler.Capacity
import Mbim.Proofs.Message.Access
import Mbim.Proofs.Reassembler.Sweeping
import Mbim.Proofs.Message.Building
import Mbim.Proofs.Limits
import Mbim.Proofs.Wire.Patching
import Mbim.Proofs.Wire.RoundTrip
import Mbim.Proofs.Text.Lines
import Mbim.Proofs.Message.Showing
import Mbim.Proofs.Message.Faithful
