import ApiScope.RingProofs
import ApiScope.RingDeliveryProofs
import ApiScope.RingDropProofs
import ApiScope.TraceSessionProofs
import ApiScope.WakeUpProofs
import ApiScope.TraceParserProofs
import ApiScope.TraceGrammarProofs
import ApiScope.TraceTransportProofs
import ApiScope.RoundTripProofs
import ApiScope.TraceRendererProofs
import ApiScope.TraceCorrelatorProofs
import ApiScope.ReadBoundsProofs
import ApiScope.ReplayProofs
import ApiScope.HandlerEventsProofs
import ApiScope.CorrelationProofs
import ApiScope.InFlightProofs
import ApiScope.HookManagerProofs
import ApiScope.DebugSessionProofs
import ApiScope.PatchSupportProofs
import ApiScope.QuiescenceProofs
import ApiScope.ReleaseProofs
import ApiScope.HistoryProofs
import ApiScope.JsonProofs
import ApiScope.JsonLinesProofs
import ApiScope.PathHistoryProofs
import ApiScope.HandOffProofs
import ApiScope.DrainProofs
import ApiScope.ModuleEventsProofs
import ApiScope.PatchSpansProofs
import ApiScope.ResolutionProofs
import ApiScope.HookOutcomeProofs
import ApiScope.RetryProofs
import ApiScope.LoadOrderProofs
import ApiScope.WordUpdateProofs
import ApiScope.RelocationProofs
import ApiScope.ManualMapProofs
import ApiScope.MappedImageProofs
import ApiScope.RemoteExportProofs
import ApiScope.ChainWalkProofs
import ApiScope.ForwarderProofs
import ApiScope.CommandLineProofs
import ApiScope.CliOptionsProofs
import ApiScope.LinesProofs
import ApiScope.TextLinesProofs
import ApiScope.AnnotationProofs
import ApiScope.PathTruncationProofs
import ApiScope.PositionLoopProofs
import ApiScope.SystemTimeProofs
import ApiScope.WalkerProofs
import ApiScope.HandleLimitProofs
import ApiScope.PatchSizeProofs
import ApiScope.OverlayProofs
import ApiScope.UndoLogProofs
import ApiScope.MovedCodeProofs
import ApiScope.MachineProofs
import ApiScope.HookInverseProofs
import ApiScope.TrampolineProofs
import ApiScope.DetachProofs
import ApiScope.AcceptorProofs
import ApiScope.EventLoopProofs
import ApiScope.TraceLifetimeProofs
import ApiScope.CollectProofs
import ApiScope.HookRegistryProofs
import ApiScope.MainProofs
import ApiScope.BoundedRunProofs
import ApiScope.SessionProgressProofs
import ApiScope.TallyProofs
import ApiScope.TraceStatsProofs
import ApiScope.TraceOutputProofs
import ApiScope.TraceFileProofs
