import GatedPipeline.Bench.Rehearsal
import GatedPipeline.Main
import GatedPipeline.Proofs.Bench.Stall
import GatedPipeline.Proofs.Gates.Completed
import GatedPipeline.Proofs.Gates.Files
import GatedPipeline.Proofs.Gates.Sharing
import GatedPipeline.Proofs.Latency.Hops
import GatedPipeline.Proofs.Latency.Totality
import GatedPipeline.Proofs.Log.Accesses
import GatedPipeline.Proofs.Log.Capacity
import GatedPipeline.Proofs.Log.Creation
import GatedPipeline.Proofs.Log.Framing
import GatedPipeline.Proofs.Log.Interleaving
import GatedPipeline.Proofs.Log.Leftovers
import GatedPipeline.Proofs.Log.Lifetime
import GatedPipeline.Proofs.Log.Pretouching
import GatedPipeline.Proofs.Log.Seeking
import GatedPipeline.Proofs.Pause.Copies
import GatedPipeline.Proofs.Pipeline.Directory
import GatedPipeline.Proofs.Run.Order
import GatedPipeline.Proofs.Run.Sized
import GatedPipeline.Proofs.Run.Unmade
import GatedPipeline.Proofs.Run.Used
import GatedPipeline.Proofs.Worker.Alone
import GatedPipeline.Proofs.Worker.Delays
import GatedPipeline.Proofs.Worker.Halting
import GatedPipeline.Proofs.Worker.Paced
import GatedPipeline.Proofs.Worker.Produced
import GatedPipeline.Proofs.Worker.Rate
import GatedPipeline.Run.Order
