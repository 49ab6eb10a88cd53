import S2Script.AsyncLimits
import S2Script.BuildOrder
import S2Script.Channels
import S2Script.CommandTokens
import S2Script.CookieOutboxProgress
import S2Script.CookieSessionsSafety
import S2Script.ConfigEditable
import S2Script.CopiedBytes
import S2Script.DeferQueueSafety
import S2Script.DetourRemoval
import S2Script.EngineAbi
import S2Script.EngineCopyArenaSafety
import S2Script.EngineCopyBudgetSafety
import S2Script.EngineCopyCaptureSafety
import S2Script.EntityLive
import S2Script.FanOut
import S2Script.FileSandbox
import S2Script.FunctionBindingsSafety
import S2Script.InteropFacade
import S2Script.InteropForwards
import S2Script.InvocationPairing
import S2Script.Json
import S2Script.JsonRoundTrip
import S2Script.JsoncComments
import S2Script.KhookBindingSafety
import S2Script.LoaderConfigTold
import S2Script.LoaderContractTexts
import S2Script.LoaderOrder
import S2Script.LoaderReservations
import S2Script.LoaderStampsRuns
import S2Script.Multiplexer
import S2Script.OriginalModuleFaithful
import S2Script.Plugin
import S2Script.PluginDirectories
import S2Script.RangeGate
import S2Script.SdkhooksSafety
import S2Script.SharedEntitySwitchHolders
import S2Script.SignatureScan
import S2Script.SurfaceLeasesSafety
import S2Script.TarRoundTrip
import S2Script.TimerQueueRefinement
import S2Script.VersionRangesSafety
import S2Script.EntityVisibilitySnapshot
import S2Script.EntityVisibilityLayout
import S2Script.VoiceHearabilityCalls
import S2Script.UiPool
import S2Script.AdminPolicyChecks
import S2Script.CommandAccessRuns
import S2Script.MenuSessionsRuns
import S2Script.ChatVotesRuns
