import FreshLocal.Injection
import FreshLocal.Proofs.Allocation
import FreshLocal.Proofs.FrameHistory
import FreshLocal.Proofs.Relocation
import FreshLocal.Proofs.Isolation
import FreshLocal.Proofs.AnnotationBytes
import FreshLocal.Proofs.BodyAssembly
import FreshLocal.Proofs.ClassAssembly
import FreshLocal.Proofs.Fidelity
import FreshLocal.Proofs.CodeRoundTrip
import FreshLocal.Proofs.DeclaredSlots
import FreshLocal.Proofs.OutsideBodies
import FreshLocal.Proofs.Conformance
import FreshLocal.Proofs.Completeness
import FreshLocal.Proofs.Prologue
import FreshLocal.Proofs.Normalization
import FreshLocal.Proofs.LengthPrefixes
import FreshLocal.Proofs.PoolRequests
import FreshLocal.Proofs.IndexedPool
import FreshLocal.Proofs.RepeatedInjection
import FreshLocal.Proofs.Spelling
import FreshLocal.Proofs.SeparateMethods
import FreshLocal.Proofs.RefusedEvents
import FreshLocal.Proofs.FaultTitles
import FreshLocal.Proofs.NeededConstants
import FreshLocal.Proofs.RefusedFrames
import FreshLocal.Proofs.LayoutRounds
import FreshLocal.Proofs.CodeSpans
import FreshLocal.Proofs.StoredFrames
import FreshLocal.Proofs.KeptFrames
import FreshLocal.Proofs.CharacterBytes
import FreshLocal.Proofs.DescriptorReaders
import FreshLocal.Proofs.AnnotationCopies
import FreshLocal.Proofs.TakenOperations
import FreshLocal.Proofs.SwitchBounds
import FreshLocal.Proofs.PrefixFree
import FreshLocal.Proofs.FreshSlots
import FreshLocal.Proofs.EntryFrame
