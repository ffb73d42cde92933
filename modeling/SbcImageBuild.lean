import SbcImageBuild.DebianSelection
import SbcImageBuild.SectorOverflow
import SbcImageBuild.UbootFreshness
import SbcImageBuild.RkbinCleanup
import SbcImageBuild.PackageList
import SbcImageBuild.AtResponse
import SbcImageBuild.BootClosure
import SbcImageBuild.ConnectionManager
import SbcImageBuild.ConsoleGrammar
import SbcImageBuild.FirmwareExtraction
import SbcImageBuild.FirmwareResolver
import SbcImageBuild.FirstBoot
import SbcImageBuild.ScmSeeding
import SbcImageBuild.ImageAssembly
import SbcImageBuild.EnvStore
import SbcImageBuild.RkbinTools
import SbcImageBuild.RootfsProvenance
import SbcImageBuild.ImagePublish
import SbcImageBuild.OverlayContainment
import SbcImageBuild.OverlayOverride
import SbcImageBuild.SharedKernel
import SbcImageBuild.StageArtifacts
import SbcImageBuild.DriverIntegration
import SbcImageBuild.RepositoryChecks
import SbcImageBuild.OverlaySelection
import SbcImageBuild.PackageSelection
import SbcImageBuild.DeletionGuard
import SbcImageBuild.UciStream
import SbcImageBuild.UciWrite
import SbcImageBuild.UnitTemplates
import SbcImageBuild.MhiRing
import SbcImageBuild.MhiElement
import SbcImageBuild.MhiDoorbell
import SbcImageBuild.MhiPowerState
import SbcImageBuild.QmapFrames
import SbcImageBuild.MbimFrames
import SbcImageBuild.MhiEvents
import SbcImageBuild.OverlayRoot
import SbcImageBuild.ImageVerification
import SbcImageBuild.PartitionListing
import SbcImageBuild.BootFiles
import SbcImageBuild.ImageVerdict
