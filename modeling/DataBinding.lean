import DataBinding.Proofs.AddedWatchers
import DataBinding.Proofs.AncestorWalks
import DataBinding.Proofs.ByteCursor
import DataBinding.Proofs.CoercedInput
import DataBinding.Proofs.CompilationEffects
import DataBinding.Proofs.CompilationLocality
import DataBinding.Proofs.CompilationModes
import DataBinding.Proofs.CompilationPieces
import DataBinding.Proofs.CompilationSites
import DataBinding.Proofs.DeliveryOrder
import DataBinding.Proofs.DocumentFrame
import DataBinding.Proofs.DottedPaths
import DataBinding.Proofs.DoubleNumbers
import DataBinding.Proofs.DroppedCompilers
import DataBinding.Proofs.EchoedInput
import DataBinding.Proofs.EngineRuns
import DataBinding.Proofs.EqualityLaws
import DataBinding.Proofs.EventDispatch
import DataBinding.Proofs.FirstMarker
import DataBinding.Proofs.FirstMatch
import DataBinding.Proofs.ForestLocality
import DataBinding.Proofs.GraphChanges
import DataBinding.Proofs.GraphIndependence
import DataBinding.Proofs.GraphLocality
import DataBinding.Proofs.InitializationFrame
import DataBinding.Proofs.InvocationChain
import DataBinding.Proofs.KeptSubscribers
import DataBinding.Proofs.LooseReports
import DataBinding.Proofs.MarkupRoundTrip
import DataBinding.Proofs.MarkupStability
import DataBinding.Proofs.ModelBindingAgreement
import DataBinding.Proofs.ModelBindingListeners
import DataBinding.Proofs.MoveEffects
import DataBinding.Proofs.MoveLocality
import DataBinding.Proofs.NodeAdoption
import DataBinding.Proofs.NodeAppending
import DataBinding.Proofs.NodeContent
import DataBinding.Proofs.NotificationPasses
import DataBinding.Proofs.OpenElements
import DataBinding.Proofs.ParentChildLinks
import DataBinding.Proofs.PathResolution
import DataBinding.Proofs.PermissiveInitialization
import DataBinding.Proofs.PlantedDocuments
import DataBinding.Proofs.ReadTrees
import DataBinding.Proofs.ReaderRegistration
import DataBinding.Proofs.RegistryGrowth
import DataBinding.Proofs.RemainingDirectives
import DataBinding.Proofs.RepeatedUpdates
import DataBinding.Proofs.RetriedInput
import DataBinding.Proofs.ScannerTotality
import DataBinding.Proofs.SelectorGrammar
import DataBinding.Proofs.ShownSlots
import DataBinding.Proofs.SidePreservation
import DataBinding.Proofs.SiteOrder
import DataBinding.Proofs.SiteOutcomes
import DataBinding.Proofs.SiteProgress
import DataBinding.Proofs.SnapshotRestoration
import DataBinding.Proofs.StrictEquality
import DataBinding.Proofs.TidyNodes
import DataBinding.Proofs.TokenLexemes
import DataBinding.Proofs.TokenOutline
import DataBinding.Proofs.TrackedReading
import DataBinding.Proofs.TypedTextCorrection
import DataBinding.Proofs.TypedTextDelivery
import DataBinding.Proofs.TypedTexts
import DataBinding.Proofs.ValueUnfolding
import DataBinding.Proofs.WatcherCurrency
import DataBinding.Script.Run
